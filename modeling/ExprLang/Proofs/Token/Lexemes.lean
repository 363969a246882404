import ExprLang.Proofs.Token.Drafts

/-!
The texts of tokens, without their places. What a scan makes of a text is decided by the lexemes it
falls into: they are read one by one, and either all of them have a kind and a payload, or the
first one that has none is the fault (`scan_of_read`, `scan_of_read_error`). Names and numerals are
lexemes of their own (`lexemes_name`, `lexemes_digits`), and a numeral reads as its number
(`read_toDigits`).
-/

set_option autoImplicit false

namespace ExprLang.Token

/-- The texts of the tokens that a text falls into. -/
def lexemes (text : List Char) : List (List Char) :=
  (drafts .zero none text).map Draft.characters

/-- What a lexeme means: a kind, and the number or name that goes with it. -/
def read (lexeme : List Char) : Except LexicalCause (Kind × Option Literal) :=
  Draft.classify lexeme (lexeme.headD ' ')

/-- What a token means, wherever it stands. -/
def key (t : Token) : Kind × Option Literal := (t.kind, t.literal)

/-- The characters of drafts do not depend on places. -/
theorem map_characters_drafts (text : List Char) (p q : Position) {d e : Option Draft}
    (h : (d.map fun d ↦ (d.first, d.others)) = e.map fun e ↦ (e.first, e.others)) :
    (drafts p d text).map Draft.characters = (drafts q e text).map Draft.characters := by
  have hbegun : ∀ (p q : Position) (c : Char),
      ((begun p c).map fun d ↦ (d.first, d.others)) =
        (begun q c).map fun d ↦ (d.first, d.others) := by
    intro p q c
    unfold begun
    split_ifs <;> rfl
  induction text generalizing p q d e with
  | nil =>
    cases d <;> cases e <;> simp_all [Draft.characters]
  | cons c rest ih =>
    cases d with
    | none =>
      cases e with
      | none => exact ih _ _ (hbegun p q c)
      | some e => simp at h
    | some d =>
      cases e with
      | none => simp at h
      | some e =>
        simp only [Option.map_some, Option.some.injEq, Prod.mk.injEq] at h
        have hjoins : d.joins c = e.joins c := by simp only [Draft.joins, h]
        by_cases hc : e.joins c = true
        · rw [drafts_of_joins (hjoins.trans hc), drafts_of_joins hc]
          refine ih _ _ ?_
          simp only [Option.map_some, Draft.push, h]
        · rw [Bool.not_eq_true] at hc
          rw [drafts_of_not_joins (hjoins.trans hc), drafts_of_not_joins hc, List.map_cons,
            List.map_cons]
          have hcharacters : d.characters = e.characters := by simp only [Draft.characters, h]
          rw [hcharacters]
          exact congrArg _ (ih _ _ (hbegun p q c))

theorem map_characters_drafts_none (text : List Char) (p : Position) :
    (drafts p none text).map Draft.characters = lexemes text :=
  map_characters_drafts text p .zero rfl

/-! ### Cutting a text at its separators -/

@[simp] theorem lexemes_nil : lexemes [] = [] := rfl

/-- A text may be cut before a separator. -/
theorem lexemes_append_cons (first : List Char) {c : Char} (h : isSeparator c = true)
    (rest : List Char) : lexemes (first ++ c :: rest) = lexemes first ++ lexemes (c :: rest) := by
  have hhead : ∀ x ∈ (c :: rest).head?, isSeparator x = true := by
    intro x hx
    cases hx
    exact h
  rw [lexemes, drafts_append_of_head _ _ _ hhead, List.map_append, map_characters_drafts_none,
    map_characters_drafts_none]

/-- Layout leaves no lexeme. -/
theorem lexemes_cons_of_layout {c : Char} (h : isLayout c = true) (rest : List Char) :
    lexemes (c :: rest) = lexemes rest := by
  have hbegun : begun .zero c = none := if_pos h
  rw [lexemes, drafts_cons_separator .zero (by simp [isSeparator, h]), hbegun, Option.toList_none,
    List.nil_append, map_characters_drafts_none]

/-- A separating mark is a lexeme by itself. -/
theorem lexemes_cons_of_mark {c : Char} (hseparator : isSeparator c = true)
    (h : isLayout c = false) (rest : List Char) :
    lexemes (c :: rest) = [c] :: lexemes rest := by
  have hbegun : begun .zero c = some ⟨.zero, c, []⟩ := if_neg (by simp [h])
  rw [lexemes, drafts_cons_separator .zero hseparator, hbegun, Option.toList_some,
    List.singleton_append, List.map_cons, map_characters_drafts_none]
  rfl

/-- A text of characters that join the draft in progress only makes it longer. -/
theorem drafts_of_all_join (place : Position) (d : Draft) (rest : List Char)
    (h : ∀ x ∈ rest, ∀ others, Draft.joins ⟨d.start, d.first, others⟩ x = true) :
    drafts place (some d) rest = [⟨d.start, d.first, rest.reverse ++ d.others⟩] := by
  induction rest generalizing place d with
  | nil => rfl
  | cons c rest ih =>
    have hc := h c List.mem_cons_self d.others
    rw [drafts_of_joins hc, ih _ (d.push c) fun x hx ↦ h x (List.mem_cons_of_mem c hx)]
    simp [Draft.push]

theorem lexemes_of_all_join {c : Char} {rest : List Char} (hlayout : isLayout c = false)
    (h : ∀ x ∈ rest, ∀ place others, Draft.joins ⟨place, c, others⟩ x = true) :
    lexemes (c :: rest) = [c :: rest] := by
  have hbegun : begun .zero c = some ⟨.zero, c, []⟩ := if_neg (by simp [hlayout])
  rw [lexemes, drafts_none_cons, hbegun, drafts_of_all_join _ _ _ fun x hx ↦ h x hx _]
  simp [Draft.characters]

theorem isLayout_of_isNameStart {c : Char} (h : isNameStart c = true) : isLayout c = false := by
  by_contra hlayout
  rw [Bool.not_eq_false] at hlayout
  have hseparator : isSeparator c = true := by simp [isSeparator, hlayout]
  simp [(isSeparator_cases hseparator).1] at h

theorem isLayout_of_isDigit {c : Char} (h : isDigit c = true) : isLayout c = false := by
  by_contra hlayout
  rw [Bool.not_eq_false] at hlayout
  have hseparator : isSeparator c = true := by simp [isSeparator, hlayout]
  simp [(isSeparator_cases hseparator).2.1] at h

/-- No digit can start a name. -/
theorem isNameStart_of_isDigit {c : Char} (h : isDigit c = true) : isNameStart c = false := by
  simp only [isDigit, Bool.and_eq_true, decide_eq_true_eq, Char.le_def, UInt32.le_iff_toNat_le] at h
  simp only [isNameStart, Bool.or_eq_false_iff, Bool.and_eq_false_iff, decide_eq_false_iff_not,
    Char.le_def, UInt32.le_iff_toNat_le, Nat.not_le]
  have hzero : ('0' : Char).val.toNat = 48 := rfl
  have hnine : ('9' : Char).val.toNat = 57 := rfl
  have ha : ('a' : Char).val.toNat = 97 := rfl
  have hA : ('A' : Char).val.toNat = 65 := rfl
  refine ⟨⟨?_, .inl (by omega)⟩, .inl (by omega)⟩
  rintro rfl
  have hunderscore : ('_' : Char).val.toNat = 95 := rfl
  omega

/-- A name is one lexeme. -/
theorem lexemes_name {c : Char} {rest : List Char} (hc : isNameStart c = true)
    (hrest : ∀ x ∈ rest, isNamePart x = true) : lexemes (c :: rest) = [c :: rest] := by
  refine lexemes_of_all_join (isLayout_of_isNameStart hc) fun x hx place others ↦ ?_
  simp [Draft.joins, hc, hrest x hx]

/-- A run of digits is one lexeme. -/
theorem lexemes_digits {c : Char} {rest : List Char} (hc : isDigit c = true)
    (hrest : ∀ x ∈ rest, isDigit x = true) : lexemes (c :: rest) = [c :: rest] := by
  refine lexemes_of_all_join (isLayout_of_isDigit hc) fun x hx place others ↦ ?_
  simp [Draft.joins, isNameStart_of_isDigit hc, hc, hrest x hx]

/-! ### Numerals -/

theorem isDigit_of_mem_toDigits {n : Nat} {c : Char} (h : c ∈ Nat.toDigits 10 n) :
    isDigit c = true := by
  have hdigit := Nat.isDigit_of_mem_toDigits (by decide) (by decide) h
  simp only [Char.isDigit, ge_iff_le, Bool.and_eq_true, decide_eq_true_eq] at hdigit
  simpa [isDigit, Char.le_def] using hdigit

theorem number_toDigits (n : Nat) : Draft.number (Nat.toDigits 10 n) = n := by
  have h := Nat.ofDigitChars_toDigits (b := 10) (n := n) (by decide) (by decide)
  rw [Nat.ofDigitChars_eq_foldl] at h
  simpa only [Draft.number, Nat.mul_comm] using h

theorem toDigits_eq_cons (n : Nat) : ∃ c rest, Nat.toDigits 10 n = c :: rest :=
  List.exists_cons_of_ne_nil Nat.toDigits_ne_nil

theorem lexemes_toDigits (n : Nat) : lexemes (Nat.toDigits 10 n) = [Nat.toDigits 10 n] := by
  obtain ⟨c, rest, h⟩ := toDigits_eq_cons n
  have hdigits : ∀ x ∈ c :: rest, isDigit x = true := fun x hx ↦
    isDigit_of_mem_toDigits (h ▸ hx)
  rw [h]
  exact lexemes_digits (hdigits c List.mem_cons_self) fun x hx ↦
    hdigits x (List.mem_cons_of_mem c hx)

/-- A numeral reads as its number, if that is in the range of integers. -/
theorem read_toDigits (n : Nat) :
    read (Nat.toDigits 10 n) =
      if n < 0x8000000000000000 then .ok (.int, some (.int (Int64.ofNat n)))
      else .error (.tooLarge (String.ofList (Nat.toDigits 10 n))) := by
  obtain ⟨c, rest, h⟩ := toDigits_eq_cons n
  have hc : isDigit c = true := isDigit_of_mem_toDigits (h ▸ List.mem_cons_self)
  have hnumber : Draft.number (c :: rest) = n := h ▸ number_toDigits n
  rw [h, read, Draft.classify, List.headD_cons]
  simp only [isNameStart_of_isDigit hc, hc, hnumber, Bool.false_eq_true, if_false, if_true]

/-! ### From lexemes to tokens -/

theorem ne_of_ofKeyword? {word : String} {kind : Kind} (h : Kind.ofKeyword? word = some kind) :
    kind ≠ .eof ∧ kind ≠ .int ∧ kind ≠ .ident := by
  unfold Kind.ofKeyword? at h
  split at h <;> cases h <;> exact ⟨nofun, nofun, nofun⟩

/-- The characters from the exclamation mark to the tilde. -/
def isVisible (c : Char) : Bool := 32 < c.toNat && c.toNat < 127

theorem isVisible_between {low c high : Char} (hlow : isVisible low = true)
    (hhigh : isVisible high = true) (h : low ≤ c ∧ c ≤ high) : isVisible c = true := by
  simp only [isVisible, Bool.and_eq_true, decide_eq_true_eq] at hlow hhigh ⊢
  exact ⟨Nat.lt_of_lt_of_le hlow.1 h.1, Nat.lt_of_le_of_lt h.2 hhigh.2⟩

theorem isVisible_of_isNameStart {c : Char} (h : isNameStart c = true) : isVisible c = true := by
  simp only [isNameStart, Bool.or_eq_true, Bool.and_eq_true, decide_eq_true_eq] at h
  obtain (rfl | hlower) | hupper := h
  · rfl
  · exact isVisible_between rfl rfl hlower
  · exact isVisible_between rfl rfl hupper

theorem isVisible_of_isDigit {c : Char} (h : isDigit c = true) : isVisible c = true := by
  simp only [isDigit, Bool.and_eq_true, decide_eq_true_eq] at h
  exact isVisible_between rfl rfl h

theorem ne_of_markKind? {lexeme : List Char} {kind : Kind}
    (h : Draft.markKind? lexeme = some kind) :
    kind ≠ .eof ∧ kind ≠ .int ∧ kind ≠ .ident ∧ isVisible (lexeme.headD ' ') = true := by
  unfold Draft.markKind? at h
  split at h <;> cases h <;> exact ⟨nofun, nofun, nofun, rfl⟩

/-- A lexeme is read as its number in the range of integers, as a name, or as a reserved word or a
mark, which carry nothing. -/
theorem read_cases {lexeme : List Char} {kind : Kind} {literal : Option Literal}
    (h : read lexeme = .ok (kind, literal)) :
    (kind = .int ∧ isDigit (lexeme.headD ' ') = true ∧ Draft.number lexeme < 0x8000000000000000 ∧
      literal = some (.int (Int64.ofNat (Draft.number lexeme)))) ∨
    (kind = .ident ∧ literal = some (.ident (String.ofList lexeme)) ∧
      isNameStart (lexeme.headD ' ') = true ∧ Kind.ofKeyword? (String.ofList lexeme) = none) ∨
    (kind ≠ .eof ∧ kind ≠ .int ∧ kind ≠ .ident ∧ literal = none) := by
  simp only [read, Draft.classify] at h
  split at h
  · rename_i hstart
    split at h
    · rename_i word hword
      cases h
      obtain ⟨heof, hint, hident⟩ := ne_of_ofKeyword? hword
      exact .inr (.inr ⟨heof, hint, hident, rfl⟩)
    · rename_i hnone
      cases h
      exact .inr (.inl ⟨rfl, rfl, hstart, hnone⟩)
  · split at h
    · rename_i hdigit
      split at h
      · rename_i hrange
        cases h
        exact .inl ⟨rfl, hdigit, hrange, rfl⟩
      · contradiction
    · split at h
      · rename_i mark hmarked
        cases h
        obtain ⟨heof, hint, hident, -⟩ := ne_of_markKind? hmarked
        exact .inr (.inr ⟨heof, hint, hident, rfl⟩)
      · split at h <;> contradiction

/-- What can be read starts with a visible character. -/
theorem isVisible_of_read {lexeme : List Char} {k : Kind × Option Literal}
    (h : read lexeme = .ok k) : isVisible (lexeme.headD ' ') = true := by
  simp only [read, Draft.classify] at h
  by_cases hname : isNameStart (lexeme.headD ' ') = true
  · exact isVisible_of_isNameStart hname
  by_cases hdigit : isDigit (lexeme.headD ' ') = true
  · exact isVisible_of_isDigit hdigit
  rw [if_neg hname, if_neg hdigit] at h
  cases hmark : Draft.markKind? lexeme with
  | some kind => exact (ne_of_markKind? hmark).2.2.2
  | none =>
    simp only [hmark] at h
    split_ifs at h

/-- No lexeme is read as the end of the input. -/
theorem read_ne_eof {lexeme : List Char} {k : Kind × Option Literal}
    (h : read lexeme = .ok k) : k.1 ≠ .eof := by
  rcases read_cases h with ⟨hint, -⟩ | ⟨hident, -⟩ | ⟨hne, -⟩
  · simp [hint]
  · simp [hident]
  · exact hne

/-- The first result of a list that is mapped without failing, and the others. -/
theorem mapM_cons_eq_ok {ε α β : Type} {f : α → Except ε β} {x : α} {xs : List α} {ys : List β}
    (h : (x :: xs).mapM f = .ok ys) :
    ∃ y others, f x = .ok y ∧ xs.mapM f = .ok others ∧ ys = y :: others := by
  rw [List.mapM_cons] at h
  cases hx : f x with
  | error cause => simp [hx, bind, Except.bind] at h
  | ok y =>
    cases hxs : xs.mapM f with
    | error cause => simp [hx, hxs, bind, Except.bind] at h
    | ok others =>
      simp only [hx, hxs, bind, Except.bind, pure, Except.pure, Except.ok.injEq] at h
      exact ⟨y, others, rfl, rfl, h.symm⟩

/-- What a list is mapped to, when nothing fails, comes from its members. -/
theorem exists_of_mem_mapM {ε α β : Type} {f : α → Except ε β} {xs : List α} {ys : List β}
    (h : xs.mapM f = .ok ys) {y : β} (hy : y ∈ ys) : ∃ x ∈ xs, f x = .ok y := by
  induction xs generalizing ys with
  | nil =>
    cases h
    contradiction
  | cons x xs ih =>
    obtain ⟨first, others, hx, hxs, rfl⟩ := mapM_cons_eq_ok h
    rcases List.mem_cons.mp hy with rfl | hy
    · exact ⟨x, List.mem_cons_self, hx⟩
    · obtain ⟨other, hother, hread⟩ := ih hxs hy
      exact ⟨other, List.mem_cons_of_mem x hother, hread⟩

theorem Draft.finish_eq (d : Draft) :
    d.finish = match read d.characters with
      | .ok (kind, literal) =>
        .ok ⟨kind, String.ofList d.characters, literal, ⟨d.start, d.start.right d.others.length⟩⟩
      | .error cause => .error (.lexical cause d.start) := rfl

theorem mapM_finish_of_read {ds : List Draft} {keys : List (Kind × Option Literal)}
    (h : (ds.map Draft.characters).mapM read = .ok keys) :
    ∃ ts, ds.mapM Draft.finish = .ok ts ∧ ts.map key = keys := by
  induction ds generalizing keys with
  | nil =>
    simp only [List.map_nil, List.mapM_nil, pure, Except.pure, Except.ok.injEq] at h
    exact ⟨[], rfl, h⟩
  | cons d ds ih =>
    rw [List.map_cons, List.mapM_cons] at h
    rw [List.mapM_cons, Draft.finish_eq]
    cases hd : read d.characters with
    | error cause => simp [hd, bind, Except.bind] at h
    | ok k =>
      cases hds : (ds.map Draft.characters).mapM read with
      | error cause => simp [hd, hds, bind, Except.bind] at h
      | ok ks =>
        obtain ⟨ts, hts, rfl⟩ := ih hds
        simp only [hd, hds, bind, Except.bind, pure, Except.pure, Except.ok.injEq] at h
        subst h
        refine ⟨_ :: ts, by simp only [hts, bind, Except.bind, pure, Except.pure]; rfl, rfl⟩

theorem mapM_finish_of_read_error {ds : List Draft} {cause : LexicalCause}
    (h : (ds.map Draft.characters).mapM read = .error cause) :
    ∃ place, ds.mapM Draft.finish = .error (.lexical cause place) := by
  induction ds with
  | nil => simp [pure, Except.pure] at h
  | cons d ds ih =>
    rw [List.map_cons, List.mapM_cons] at h
    rw [List.mapM_cons, Draft.finish_eq]
    cases hd : read d.characters with
    | error other =>
      simp only [hd, bind, Except.bind, Except.error.injEq] at h
      subst h
      exact ⟨d.start, rfl⟩
    | ok k =>
      cases hds : (ds.map Draft.characters).mapM read with
      | error other =>
        simp only [hd, hds, bind, Except.bind, Except.error.injEq] at h
        subst h
        obtain ⟨place, hplace⟩ := ih hds
        exact ⟨place, by simp only [hplace, bind, Except.bind]⟩
      | ok ks => simp [hd, hds, bind, Except.bind, pure, Except.pure] at h

/-- A text all of whose lexemes can be read is scanned into tokens that mean what they mean. -/
theorem scan_of_read (file : String) {source : String} {keys : List (Kind × Option Literal)}
    (h : (lexemes source.toList).mapM read = .ok keys) :
    ∃ ts place, scan file source = .ok (ts ++ [.endAt place]) ∧ ts.map key = keys := by
  rw [← map_characters_drafts_none _ ⟨file, 1, 1⟩] at h
  obtain ⟨ts, hts, hkeys⟩ := mapM_finish_of_read h
  exact ⟨ts, _, by rw [scan_eq, hts]; rfl, hkeys⟩

/-- A text one of whose lexemes cannot be read is not scanned. -/
theorem scan_of_read_error (file : String) {source : String} {cause : LexicalCause}
    (h : (lexemes source.toList).mapM read = .error cause) :
    ∃ place, scan file source = .error (.lexical cause place) := by
  rw [← map_characters_drafts_none _ ⟨file, 1, 1⟩] at h
  obtain ⟨place, hplace⟩ := mapM_finish_of_read_error h
  exact ⟨place, by rw [scan_eq, hplace]; rfl⟩

/-- A text that is not scanned has a lexeme without a meaning. -/
theorem exists_lexical_of_scan {file source : String} {fault : Fault}
    (h : scan file source = .error fault) : ∃ cause place, fault = .lexical cause place := by
  cases hread : (lexemes source.toList).mapM read with
  | error cause =>
    obtain ⟨place, hscan⟩ := scan_of_read_error file hread
    rw [hscan] at h
    cases h
    exact ⟨cause, place, rfl⟩
  | ok keys =>
    obtain ⟨ts, place, hscan, -⟩ := scan_of_read file hread
    rw [hscan] at h
    contradiction

end ExprLang.Token
