import ExprLang.Proofs.Expr.Completion
import ExprLang.Proofs.Token.Scanned

/-!
A parse fault points at the first token that cannot be right. The tokens before it can be completed
to a program by further tokens (`exists_program_append`), and no token list that begins with them
and with the token itself is a program, unless the token is the end mark
(`program_error_of_feed`). A place tells the tokens of a source apart, so the fault is about
exactly one of them (`parse_fault_first`).
-/

set_option autoImplicit false

namespace ExprLang.Parser

open Token (Mark)

theorem isFilled_of_sound {t : Token} (h : t.Sound) : t.isFilled = true := by
  unfold Token.isFilled
  split
  · rename_i hkind
    obtain ⟨n, hliteral, -⟩ := h.int hkind
    simp [Token.int?, hkind, hliteral]
  · rename_i hkind
    obtain ⟨s, hliteral, -⟩ := h.ident hkind
    simp [Token.ident?, hkind, hliteral]
  · rfl

/-- What was read can be completed by the tokens of some text. -/
theorem exists_program_append (file : String) {before : List Token} {p : Progress}
    (h : before.foldlM Progress.feed .start = .ok p) (hp : p.Named) :
    ∃ text more items, Token.scan file text = .ok more ∧
      program (.ofList (before ++ more)) = .ok items := by
  have hlegible := legible_ending p
  obtain ⟨q, hread, hfinish⟩ := completes_ending hp
  have hspells : Expr.Spells (String.ofList (Mark.spaced p.ending)).toList p.ending := by
    rw [String.toList_ofList]
    exact Mark.lexemes_spaced fun m hm ↦ (hlegible m hm).1
  obtain ⟨more, place, hscan, hkeys⟩ := scan_of_spells file hspells hlegible
  obtain ⟨items, hitems⟩ := hfinish (.endAt place)
  have hrest := foldlM_feed_of_readMarks hkeys hread
  refine ⟨_, _, items, hscan, ?_⟩
  rw [← List.append_assoc, program_ofList, List.foldlM_append, h]
  change ((more.foldlM Progress.feed p).bind _) = _
  rw [hrest]
  exact hitems

/-- Only an end mark at the end of a token list is not read. -/
theorem ahead_ofList_concat (ts : List Token) (last : Token) :
    (Token.Cursor.ofList (ts ++ [last])).ahead =
      if last.kind = .eof then ts else ts ++ [last] := by
  simp only [Token.Cursor.ofList, List.getLast?_concat, List.dropLast_concat]
  split_ifs <;> rfl

/-- Whatever follows it, a token that is no end mark is read. -/
theorem exists_ahead_ofList (before : List Token) {t : Token} (ht : t.kind ≠ .eof)
    (more : List Token) :
    ∃ rest, (Token.Cursor.ofList (before ++ t :: more)).ahead = before ++ t :: rest := by
  rcases List.eq_nil_or_concat more with rfl | ⟨others, last, rfl⟩
  · exact ⟨[], by rw [ahead_ofList_concat, if_neg ht]⟩
  · rw [List.concat_eq_append, ← List.cons_append, ← List.append_assoc, ahead_ofList_concat]
    by_cases hlast : last.kind = .eof
    · exact ⟨others, if_pos hlast⟩
    · refine ⟨others ++ [last], ?_⟩
      rw [if_neg hlast, List.append_assoc, List.cons_append]

/-- Where a token cannot be read, no token list goes on with it. -/
theorem program_error_of_feed {before : List Token} {p : Progress} {t : Token} {fault : Fault}
    (h : before.foldlM Progress.feed .start = .ok p) (ht : t.kind ≠ .eof)
    (hfeed : p.feed t = .error fault) (more : List Token) :
    program (.ofList (before ++ t :: more)) = .error fault := by
  obtain ⟨rest, hahead⟩ := exists_ahead_ofList before ht more
  rw [program, hahead, List.foldlM_append, h]
  change (((t :: rest).foldlM Progress.feed p).bind _) = _
  rw [List.foldlM_cons, hfeed]
  rfl

/-- Tokens in the order of their places are told apart by them. -/
theorem index_eq_of_position {tokens : List Token}
    (h : tokens.Pairwise fun t u ↦ t.position.Before u.position) {j k : Nat} {t u : Token}
    (hj : tokens[j]? = some u) (hk : tokens[k]? = some t) (hposition : u.position = t.position) :
    j = k := by
  obtain ⟨hjlt, rfl⟩ := List.getElem?_eq_some_iff.mp hj
  obtain ⟨hklt, rfl⟩ := List.getElem?_eq_some_iff.mp hk
  rw [List.pairwise_iff_getElem] at h
  rcases Nat.lt_trichotomy j k with hlt | heq | hgt
  · exact absurd hposition (h j k hjlt hklt hlt).ne
  · exact heq
  · exact absurd hposition.symm (h k j hklt hjlt hgt).ne

/-- A source whose tokens are no program is rejected at one of them, and those before it were
read. -/
theorem exists_first_fault {file source : String} {tokens : List Token} {fault : Fault}
    (hscan : Token.scan file source = .ok tokens) (h : parse file source = .error fault) :
    ∃ before t after p, tokens = before ++ t :: after ∧
      before.foldlM Progress.feed .start = .ok p ∧ p.Named ∧ t.isFilled = true ∧
      Blames t fault ∧ (t.kind = .eof ↔ after = []) ∧
      (after ≠ [] → p.feed t = .error fault) := by
  obtain ⟨ts, place, rfl, hts, -⟩ := Token.exists_of_scan hscan
  have hfilled : ∀ t ∈ ts, t.isFilled = true := fun t ht ↦ isFilled_of_sound (hts t ht).1
  rw [parse_of_scan hscan] at h
  cases hread : ts.foldlM Progress.feed .start with
  | error other =>
    rw [hread] at h
    cases h
    obtain ⟨before, t, after, p, rfl, hbefore, hfeed⟩ := exists_of_foldlM_error hread
    have hnamed := named_of_foldlM (fun u hu ↦ hfilled u (List.mem_append_left _ hu)) hbefore
    obtain ⟨-, hne⟩ := hts t (by simp)
    refine ⟨before, t, after ++ [.endAt place], p, by simp, hbefore, hnamed,
      hfilled t (by simp), failsWith_feed hnamed t fault hfeed, ?_, fun _ ↦ hfeed⟩
    simp [hne]
  | ok p =>
    rw [hread] at h
    exact ⟨ts, .endAt place, [], p, rfl, hread, named_of_foldlM hfilled hread, rfl,
      failsWith_finish p _ fault h, iff_of_true rfl rfl, fun hne ↦ absurd rfl hne⟩

/-- Assumes: the source can be scanned, and is rejected. Then the fault is a parse fault and points
at the start of exactly one of the tokens. The tokens before that one can be completed to a program
by the tokens of some text. Unless it is the end mark, every token list that begins with them and
with the token itself is rejected with the same fault. It is the end mark if and only if the fault
says that the source stopped too early, and an assignment sign if the fault is about the target of
an assignment. -/
theorem parse_fault_first {file source : String} {tokens : List Token} {fault : Fault}
    (hscan : Token.scan file source = .ok tokens) (h : parse file source = .error fault) :
    fault.kind = .parse ∧ ∃ k t, tokens[k]? = some t ∧ fault.position? = some t.position ∧
      (∀ j u, tokens[j]? = some u → fault.position? = some u.position → j = k) ∧
      (∃ text more items, Token.scan file text = .ok more ∧
        program (.ofList (tokens.take k ++ more)) = .ok items) ∧
      (k + 1 < tokens.length → ∀ more,
        program (.ofList (tokens.take (k + 1) ++ more)) = .error fault) ∧
      (k + 1 = tokens.length ↔ fault.incomplete = true) ∧
      ∀ span, fault = .assignmentTarget span → t.kind = .assign := by
  obtain ⟨-, -, -, -, hordered⟩ := Token.exists_of_scan hscan
  obtain ⟨before, t, after, p, rfl, hbefore, hnamed, hfilled, hblames, hlast, hfeed⟩ :=
    exists_first_fault hscan h
  obtain ⟨hkind, hposition⟩ := hblames.position? hfilled
  have hget : (before ++ t :: after)[before.length]? = some t := by simp
  have htake : (before ++ t :: after).take before.length = before := by simp
  have htakeNext : (before ++ t :: after).take (before.length + 1) = before ++ [t] := by
    simp [List.take_append, List.take_of_length_le (Nat.le_succ before.length)]
  refine ⟨hkind, before.length, t, hget, hposition, ?_, ?_, ?_, ?_, hblames.target⟩
  · intro j u hu hother
    refine index_eq_of_position hordered hu hget ?_
    exact Option.some.inj (hother.symm.trans hposition)
  · rw [htake]
    exact exists_program_append file hbefore hnamed
  · intro hlength more
    have hafter : after ≠ [] := by
      rintro rfl
      simp at hlength
    rw [htakeNext, List.append_assoc]
    exact program_error_of_feed hbefore (mt hlast.mp hafter) (hfeed hafter) more
  · rw [hblames.incomplete, decide_eq_true_iff, hlast]
    simp

/-- A sum is no target. The fault is about the sign behind it, whatever is assigned. -/
theorem parse_fault_first_target :
    ∃ tokens fault, Token.scan "p" "x; a + 1 = 2" = .ok tokens ∧
      parse "p" "x; a + 1 = 2" = .error fault ∧ fault.kind = .parse ∧
      fault.position? = some ⟨"p", 1, 10⟩ ∧
      (∀ more, program (.ofList (tokens.take 6 ++ more)) = .error fault) ∧
      ∃ more items, program (.ofList (tokens.take 5 ++ more)) = .ok items := by
  have hscan : ∃ tokens, Token.scan "p" "x; a + 1 = 2" = .ok tokens ∧ tokens.length = 8 ∧
      ∀ t, tokens[5]? = some t → t.position = ⟨"p", 1, 10⟩ := ⟨_, rfl, rfl, by rintro _ ⟨⟩; rfl⟩
  have hparse : parse "p" "x; a + 1 = 2" =
      .error (.assignmentTarget (Position.span ⟨"p", 1, 10⟩)) := rfl
  obtain ⟨tokens, htokens, hlength, hsign⟩ := hscan
  obtain ⟨hkind, k, t, hget, hposition, hunique, ⟨text, more, items, -, hmore⟩, hreject, -⟩ :=
    parse_fault_first htokens hparse
  obtain ⟨sign, hsixth⟩ : ∃ sign, tokens[5]? = some sign :=
    ⟨_, List.getElem?_eq_getElem (by omega)⟩
  obtain rfl : 5 = k := hunique 5 sign hsixth (congrArg some (hsign sign hsixth).symm)
  exact ⟨tokens, _, htokens, hparse, hkind, rfl, hreject (by omega), more, items, hmore⟩

end ExprLang.Parser
