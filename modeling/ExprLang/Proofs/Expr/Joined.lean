import ExprLang.Proofs.Expr.FirstFault
import ExprLang.Proofs.Expr.Moves

/-!
Sources in a row. What was finished before is not looked at again (`Progress.onto`), and a semicolon
behind an expression ends it as the end of the input does (`feed_semicolon_of_finish`). So a source
that does not itself end in a semicolon can be joined to another one by a semicolon and a new line,
and the two are read as if each stood alone (`parse_append_semicolon`).
-/

set_option autoImplicit false

namespace ExprLang.Parser

open Token (Mark)

/-! ### What was finished before -/

/-- The program with other expressions finished before its own. -/
def Progress.onto (p : Progress) (earlier : List Tree) : Progress :=
  { p with done := p.done ++ earlier }

theorem begin_onto (done earlier : List Tree) (t : Token) :
    Progress.begin (done ++ earlier) t = (Progress.begin done t).map (·.onto earlier) := by
  unfold Progress.begin
  cases operand [] t <;> rfl

theorem take_onto (done earlier : List Tree) (t : Token) (step : Step) :
    Progress.take (done ++ earlier) t step = (Progress.take done t step).map (·.onto earlier) := by
  cases step with
  | shift s => rfl
  | done e =>
    simp only [Progress.take]
    split_ifs
    · rfl
    · exact begin_onto (e :: done) earlier t

theorem feed_onto (p : Progress) (earlier : List Tree) (t : Token) :
    (p.onto earlier).feed t = (p.feed t).map (·.onto earlier) := by
  obtain ⟨done, _ | s⟩ := p
  · exact begin_onto done earlier t
  · change Progress.feed ⟨done ++ earlier, some s⟩ t = _
    rw [feed_some, feed_some]
    cases s.feed t with
    | error fault => rfl
    | ok step => exact take_onto done earlier t step

/-- Tokens are read alike whatever was finished before. -/
theorem foldlM_feed_onto (p : Progress) (earlier : List Tree) (ts : List Token) :
    ts.foldlM Progress.feed (p.onto earlier) =
      (ts.foldlM Progress.feed p).map (·.onto earlier) := by
  induction ts generalizing p with
  | nil => rfl
  | cons t ts ih =>
    rw [List.foldlM_cons, List.foldlM_cons, feed_onto]
    cases p.feed t with
    | error fault => rfl
    | ok q => exact ih q

theorem finish_onto {p : Progress} {t : Token} {items : List Tree} (h : p.finish t = .ok items)
    (earlier : List Tree) : (p.onto earlier).finish t = .ok (earlier.reverse ++ items) := by
  obtain ⟨done, _ | s⟩ := p
  · cases h
    exact congrArg Except.ok List.reverse_append
  · obtain ⟨e, he, rfl⟩ := exists_of_map_eq_ok h
    change (s.finish t).map _ = _
    rw [he]
    change Except.ok ((e :: done) ++ earlier).reverse = _
    rw [List.reverse_append]

theorem reach_onto (p : Progress) (earlier : List Tree) (text : List Char) :
    reach (p.onto earlier) text = (reach p text).map (·.onto earlier) := by
  unfold reach
  cases ((Token.lexemes text).mapM Token.read).toOption with
  | none => rfl
  | some keys =>
    simp only [Option.bind_some, foldlM_feed_onto]
    cases (keys.map tokenOf).foldlM Progress.feed p <;> rfl

/-! ### A semicolon behind an expression -/

/-- Contexts that the end of the input closes are closed by every token that ends expressions. -/
theorem close_of_plugs {stack rest : List Context} {e whole : Tree}
    (h : Plugs stack e rest whole) {t : Token} (ht : isCloser t = true) :
    close t stack e = close t rest whole := by
  induction h with
  | refl => rfl
  | plug hplug _ ih => exact (close_plug hplug ht _).trans ih

/-- Where the input may end behind an expression, a semicolon may follow. -/
theorem feed_semicolon_of_finish {p : Progress} {t : Token} {items : List Tree}
    (h : p.finish t = .ok items) (hcurrent : p.current ≠ none) :
    p.feed (Mark.sign .semicolon).token = .ok (Progress.start.onto items.reverse) := by
  rcases cases_of_finish h with ⟨hnone, -⟩ | ⟨stack, e, indexable, whole, hsome, hplugs, rfl⟩
  · exact absurd hnone hcurrent
  · obtain ⟨done, _⟩ := p
    subst hsome
    have hclose := close_of_plugs hplugs (t := (Mark.sign .semicolon).token) rfl
    have hfeed : State.feed ⟨stack, .value e indexable⟩ (Mark.sign .semicolon).token =
        .ok (.done whole) := (afterOperand_closer rfl stack e indexable).trans hclose
    rw [feed_some, hfeed, List.reverse_reverse]
    rfl

/-- A program stands between two expressions only at its start and behind a semicolon. -/
theorem current_ne_none {before : List Token} {t : Token} {p : Progress}
    (h : (before ++ [t]).foldlM Progress.feed .start = .ok p) (ht : t.kind ≠ .semicolon) :
    p.current ≠ none := by
  rw [List.foldlM_append] at h
  cases hbefore : before.foldlM Progress.feed .start with
  | error fault => simp [hbefore, bind, Except.bind] at h
  | ok q =>
    rw [hbefore] at h
    have hfeed : q.feed t = .ok p := (bind_pure (q.feed t)).symm.trans h
    cases advances_of_feed hfeed with
    | begins | shifts | restarts => exact nofun
    | ends _ _ hkind => exact absurd hkind ht

/-! ### Two sources -/

/-- What a source is read as is decided by how far its tokens take the program. -/
theorem parse_eq_ok_iff (file source : String) (items : List Tree) :
    parse file source = .ok items ↔
      ∃ p, reach .start source.toList = some p ∧ ∀ t, p.finish t = .ok items := by
  cases hreach : reach .start source.toList with
  | none =>
    obtain ⟨fault, hfault, -⟩ := parse_of_not_reach file hreach
    simp [hfault]
  | some p =>
    obtain ⟨place, hparse⟩ := parse_of_reach file hreach
    rw [hparse]
    constructor
    · intro h
      refine ⟨p, rfl, fun t ↦ verdict_eq_ok.mp ?_⟩
      rw [finish_congr p t (.endAt place), h]
      rfl
    · rintro ⟨_, ⟨⟩, hfinish⟩
      exact hfinish _

/-- The tokens of a source take a program as far as its text does. -/
theorem reach_of_scan {file source : String} {ts : List Token} {place : Position}
    (h : Token.scan file source = .ok (ts ++ [.endAt place])) (p : Progress) :
    reach p source.toList = (ts.foldlM Progress.feed p).toOption := by
  cases hkeys : (Token.lexemes source.toList).mapM Token.read with
  | error cause =>
    obtain ⟨_, hscan⟩ := Token.scan_of_read_error file hkeys
    rw [h] at hscan
    contradiction
  | ok keys =>
    obtain ⟨others, _, hscan, hothers⟩ := Token.scan_of_read file hkeys
    rw [h] at hscan
    obtain ⟨rfl, -⟩ := List.append_inj' (Except.ok.inj hscan) rfl
    rw [reach, hkeys, ← toOption_of_verdict
      (foldlM_feed_congr ((map_key_tokenOf keys).trans hothers.symm) p)]
    rfl

/-- A text goes on behind a semicolon from where the semicolon takes it. -/
theorem reach_append_semicolon (p : Progress) (text rest : List Char) :
    reach p (text ++ ';' :: '\n' :: rest) = (reach p text).bind fun q ↦
      (q.feed (Mark.sign .semicolon).token).toOption.bind (reach · rest) := by
  have hcut : Token.lexemes (text ++ ';' :: '\n' :: rest) =
      Token.lexemes text ++ Token.lexemes (';' :: '\n' :: rest) :=
    Token.lexemes_append_cons text (by decide) _
  rw [reach_of_lexemes hcut]
  congr 1
  funext q
  have hsemicolon : reach q [';'] = (q.feed (Mark.sign .semicolon).token).toOption := by
    change ([(Mark.sign .semicolon).token].foldlM Progress.feed q).toOption = _
    rw [List.foldlM_cons]
    exact congrArg Except.toOption (bind_pure _)
  rw [← hsemicolon]
  exact reach_append_line q [';'] rest

/-- Assumes: both sources are accepted, and the first one has a token and does not end in a
semicolon. Joined by a semicolon and a new line they are read as the one and then the other. -/
theorem parse_append_semicolon {fileA fileB a b : String} {tokens : List Token} {t : Token}
    {xs ys : List Tree} (ha : parse fileA a = .ok xs) (hb : parse fileB b = .ok ys)
    (hscan : Token.scan fileA a = .ok tokens) (hlast : tokens.dropLast.getLast? = some t)
    (ht : t.kind ≠ .semicolon) (file : String) :
    parse file (a ++ ";\n" ++ b) = .ok (xs ++ ys) := by
  obtain ⟨p, hp, hfinishA⟩ := (parse_eq_ok_iff fileA a xs).mp ha
  obtain ⟨q, hq, hfinishB⟩ := (parse_eq_ok_iff fileB b ys).mp hb
  obtain ⟨ts, place, rfl, -, -⟩ := Token.exists_of_scan hscan
  rw [List.dropLast_concat] at hlast
  obtain ⟨before, rfl⟩ := List.getLast?_eq_some_iff.mp hlast
  have hread : (before ++ [t]).foldlM Progress.feed .start = .ok p := by
    have hsome := (reach_of_scan hscan .start).symm.trans hp
    cases hfold : (before ++ [t]).foldlM Progress.feed .start with
    | error fault => simp [hfold, Except.toOption] at hsome
    | ok other => simpa [hfold, Except.toOption] using hsome
  have hsemicolon := feed_semicolon_of_finish (hfinishA t) (current_ne_none hread ht)
  refine (parse_eq_ok_iff file _ _).mpr ⟨q.onto xs.reverse, ?_, fun u ↦ ?_⟩
  · have htext : (a ++ ";\n" ++ b).toList = a.toList ++ ';' :: '\n' :: b.toList := by simp
    rw [htext, reach_append_semicolon, hp, Option.bind_some, hsemicolon]
    change reach (Progress.start.onto xs.reverse) b.toList = _
    rw [reach_onto, hq]
    rfl
  · simpa using finish_onto (hfinishB u) xs.reverse

end ExprLang.Parser
