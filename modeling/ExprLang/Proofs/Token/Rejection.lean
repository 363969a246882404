import ExprLang.Proofs.Text.Utf8
import ExprLang.Proofs.Token.Runs

/-!
What is rejected, and where. A source is rejected because of one character, its culprit: what stands
before it is scanned, and from it on no token can be read (`Offends`). A lexeme cannot be read if
its first character offends (`read_lexemeFrom_eq_error_iff`), and an offending character belongs to
no token before it (`not_joins_of_offends`). So the first token that cannot be read starts at the
culprit (`exists_culprit`), and a culprit starts such a token (`scan_of_culprit`). A source has at
most one (`scan_rejects`).
-/

set_option autoImplicit false

namespace ExprLang.Token

/-! ### Characters that cannot be read -/

/-- The characters that tokens are made of, and layout. -/
def isKnown (c : Char) : Bool :=
  isNamePart c || isLayout c || ['+', '-', '*', '/', '(', ')', '{', '}', '[', ']', ';', ',', '=',
    '!', '<', '>', '&', '|'].contains c

/-- The character `c` cannot be read with `before` in front of it and `after` behind it. It is of no
use at all, or it lacks its double, or it is the first one of a run of digits that is too large. -/
inductive Offends (before : List Char) (c : Char) (after : List Char) : LexicalCause → Prop
  | unexpected (h : isKnown c = false) : Offends before c after (.unexpected c)
  | unpaired (h : c = '&' ∨ c = '|') (hnext : after.head? ≠ some c) :
      Offends before c after (.unpaired c)
  | tooLarge (h : isDigit c = true) (hbefore : ∀ b ∈ before.getLast?, isNamePart b = false)
      (hvalue : 0x8000000000000000 ≤ Nat.ofDigitChars 10 (c :: after.takeWhile isDigit) 0) :
      Offends before c after (.tooLarge (String.ofList (c :: after.takeWhile isDigit)))

theorem isKnown_of_markKind? {lexeme : List Char} {kind : Kind}
    (h : Draft.markKind? lexeme = some kind) : isKnown (lexeme.headD ' ') = true := by
  unfold Draft.markKind? at h
  split at h <;> cases h <;> rfl

theorem isKnown_of_joins {d : Draft} {c : Char} (h : d.joins c = true) : isKnown c = true := by
  rcases joins_cases h with ⟨-, hpart⟩ | ⟨-, -, ⟨rfl, -⟩ | ⟨-, rfl | rfl⟩⟩
  · simp [isKnown, hpart]
  all_goals rfl

/-- A mark, alone or with the character that joins it, is a token, but for the two that have to be
doubled. -/
theorem markKind?_ne_none {c : Char} (hknown : isKnown c = true) (hlayout : isLayout c = false)
    (hpart : isNamePart c = false) :
    (¬(c = '&' ∨ c = '|') → Draft.markKind? [c] ≠ none) ∧
      ∀ x, Draft.joins ⟨.zero, c, []⟩ x = true → Draft.markKind? [c, x] ≠ none := by
  constructor
  · simp only [isKnown, hlayout, hpart, Bool.or_false, Bool.false_or,
      List.contains_iff_mem, List.mem_cons, List.not_mem_nil, or_false] at hknown
    rcases hknown with rfl | rfl | rfl | rfl | rfl | rfl | rfl | rfl | rfl | rfl | rfl | rfl | rfl |
      rfl | rfl | rfl | rfl | rfl <;> decide
  · intro x hx
    rcases joins_cases hx with ⟨hfirst, -⟩ | ⟨-, -, ⟨rfl, rfl | rfl | rfl | rfl⟩ | ⟨rfl, rfl | rfl⟩⟩
    · exact absurd hpart (by simpa using hfirst)
    all_goals decide

/-- A mark is no token if nothing knows it, or if it lacks its double. -/
theorem markKind?_lexemeFrom_eq_none_iff {c : Char} (hlayout : isLayout c = false)
    (hname : isNameStart c = false) (hdigit : isDigit c = false) (after : List Char) :
    Draft.markKind? (lexemeFrom c after) = none ↔
      isKnown c = false ∨ (c = '&' ∨ c = '|') ∧ after.head? ≠ some c := by
  have hpart : isNamePart c = false := by rw [isNamePart, hname, hdigit]; rfl
  by_cases hknown : isKnown c = true
  · obtain ⟨halone, hjoined⟩ := markKind?_ne_none hknown hlayout hpart
    simp only [hknown, Bool.true_eq_false, false_or]
    by_cases hnext : ∃ x ∈ after.head?, Draft.joins ⟨.zero, c, []⟩ x = true
    · obtain ⟨x, hx, hjoins⟩ := hnext
      have hlexeme : lexemeFrom c after = [c, x] := by
        rw [lexemeFrom_of_mark hname hdigit, hx]
        simp [hjoins]
      rw [hlexeme]
      refine iff_of_false (hjoined x hjoins) ?_
      rintro ⟨hc, hne⟩
      rcases joins_cases hjoins with ⟨hfirst, -⟩ | ⟨-, -, ⟨-, hfirst⟩ | ⟨rfl, -⟩⟩
      · exact absurd hpart (by simpa using hfirst)
      · rcases hc with rfl | rfl <;> simp at hfirst
      · exact hne hx
    · have hlexeme : lexemeFrom c after = [c] := by
        rw [lexemeFrom_of_mark hname hdigit]
        cases hhead : after.head? with
        | none => rfl
        | some x =>
          have hstop : ¬Draft.joins ⟨.zero, c, []⟩ x = true := fun hjoins ↦
            hnext ⟨x, hhead, hjoins⟩
          simp [hstop]
      rw [hlexeme]
      constructor
      · intro hnone
        have hc : c = '&' ∨ c = '|' := by_contra fun hc ↦ halone hc hnone
        refine ⟨hc, fun hhead ↦ hnext ⟨c, hhead, ?_⟩⟩
        rcases hc with rfl | rfl <;> decide
      · rintro ⟨rfl | rfl, -⟩ <;> rfl
  · rw [Bool.not_eq_true] at hknown
    refine iff_of_true ?_ (.inl hknown)
    by_contra hsome
    obtain ⟨kind, hkind⟩ := Option.ne_none_iff_exists'.mp hsome
    have hself : isKnown c = true := isKnown_of_markKind? hkind
    rw [hknown] at hself
    contradiction

/-- What a first character offends by. -/
theorem offends_nil_iff {c : Char} {after : List Char} {cause : LexicalCause} :
    Offends [] c after cause ↔
      isKnown c = false ∧ cause = .unexpected c ∨
      ((c = '&' ∨ c = '|') ∧ after.head? ≠ some c) ∧ cause = .unpaired c ∨
      (isDigit c = true ∧
        0x8000000000000000 ≤ Nat.ofDigitChars 10 (c :: after.takeWhile isDigit) 0) ∧
        cause = .tooLarge (String.ofList (c :: after.takeWhile isDigit)) := by
  constructor
  · rintro (hunknown | ⟨hc, hnext⟩ | ⟨hdigit, -, hvalue⟩)
    · exact .inl ⟨hunknown, rfl⟩
    · exact .inr (.inl ⟨⟨hc, hnext⟩, rfl⟩)
    · exact .inr (.inr ⟨⟨hdigit, hvalue⟩, rfl⟩)
  · rintro (⟨hunknown, rfl⟩ | ⟨⟨hc, hnext⟩, rfl⟩ | ⟨⟨hdigit, hvalue⟩, rfl⟩)
    · exact .unexpected hunknown
    · exact .unpaired hc hnext
    · exact .tooLarge hdigit (by simp) hvalue

/-- Characters of names are known, and do not have to be doubled. -/
theorem isKnown_of_isNamePart {c : Char} (h : isNamePart c = true) :
    isKnown c = true ∧ ¬(c = '&' ∨ c = '|') := by
  refine ⟨by simp [isKnown, h], ?_⟩
  rintro (rfl | rfl) <;> contradiction

/-- A lexeme cannot be read exactly if its first character offends, where nothing is in front of it
that it could belong to. -/
theorem read_lexemeFrom_eq_error_iff {c : Char} (hlayout : isLayout c = false) {after : List Char}
    {cause : LexicalCause} :
    read (lexemeFrom c after) = .error cause ↔ Offends [] c after cause := by
  have hread : read (lexemeFrom c after) = Draft.classify (lexemeFrom c after) c := rfl
  rw [hread, Draft.classify, offends_nil_iff]
  by_cases hname : isNameStart c = true
  · -- A name can always be read.
    have hdigit : isDigit c = false := Bool.eq_false_iff.mpr fun hdigit ↦ by
      simp [isNameStart_of_isDigit hdigit] at hname
    obtain ⟨hknown, hpair⟩ := isKnown_of_isNamePart (c := c) (by simp [isNamePart, hname])
    simp only [hname, if_true, hknown, hpair, hdigit, Bool.true_eq_false, Bool.false_eq_true,
      false_and, or_false, iff_false]
    split <;> simp
  rw [Bool.not_eq_true] at hname
  simp only [hname, Bool.false_eq_true, if_false]
  by_cases hdigit : isDigit c = true
  · obtain ⟨hknown, hpair⟩ := isKnown_of_isNamePart (c := c) (by simp [isNamePart, hdigit])
    simp only [hdigit, if_true, lexemeFrom_of_isDigit hdigit, ← ofDigitChars_eq_number, hknown,
      hpair, Bool.true_eq_false, false_and, false_or, true_and]
    split_ifs with hvalue
    · simp [Nat.not_le.mpr hvalue]
    · simp [Nat.not_lt.mp hvalue, eq_comm]
  · simp only [hdigit, Bool.false_eq_true, if_false, false_and, or_false]
    rw [Bool.not_eq_true] at hdigit
    have hnone := markKind?_lexemeFrom_eq_none_iff hlayout hname hdigit after
    cases hmark : Draft.markKind? (lexemeFrom c after) with
    | some kind =>
      obtain ⟨hknown, hpair⟩ := not_or.mp (mt hnone.mpr (by simp [hmark]))
      simp [hknown, hpair]
    | none =>
      have hrefused := hnone.mp hmark
      by_cases hc : c = '&' ∨ c = '|'
      · have hknown : isKnown c = true := by rcases hc with rfl | rfl <;> rfl
        have hnext := hrefused.resolve_left (by simp [hknown])
        simp only [Bool.or_eq_true, decide_eq_true_eq, hc, if_true, Except.error.injEq, hknown,
          Bool.true_eq_false, false_and, false_or, hnext.2, ne_eq, not_false_eq_true, true_and]
        exact eq_comm
      · have hunknown := hrefused.resolve_right fun hpair ↦ hc hpair.1
        simp only [Bool.or_eq_true, decide_eq_true_eq, hc, if_false, Except.error.injEq, hunknown,
          false_and, or_false, true_and]
        exact eq_comm

/-! ### Lists that are mapped as long as nothing fails -/

theorem exists_ok_of_mapM {ε α β : Type} {f : α → Except ε β} {xs : List α} {ys : List β}
    (h : xs.mapM f = .ok ys) {x : α} (hx : x ∈ xs) : ∃ y, f x = .ok y := by
  induction xs generalizing ys with
  | nil => contradiction
  | cons first rest ih =>
    obtain ⟨y, others, hfirst, hrest, -⟩ := mapM_cons_eq_ok h
    rcases List.mem_cons.mp hx with rfl | hx
    · exact ⟨y, hfirst⟩
    · exact ih hrest hx

/-- A list is mapped to the first failure among its members. -/
theorem mapM_eq_error_iff {ε α β : Type} {f : α → Except ε β} {xs : List α} {cause : ε} :
    xs.mapM f = .error cause ↔
      ∃ before x after ys, xs = before ++ x :: after ∧ before.mapM f = .ok ys ∧
        f x = .error cause := by
  constructor
  · intro h
    induction xs with
    | nil => contradiction
    | cons first rest ih =>
      rw [List.mapM_cons] at h
      cases hfirst : f first with
      | error other =>
        rw [hfirst] at h
        cases h
        exact ⟨[], first, rest, [], rfl, rfl, hfirst⟩
      | ok y =>
        rw [hfirst] at h
        cases hrest : rest.mapM f with
        | ok ys =>
          rw [hrest] at h
          contradiction
        | error other =>
          rw [hrest] at h
          cases h
          obtain ⟨before, x, after, ys, rfl, hbefore, hx⟩ := ih hrest
          refine ⟨first :: before, x, after, y :: ys, rfl, ?_, hx⟩
          rw [List.mapM_cons, hfirst, hbefore]
          rfl
  · rintro ⟨before, x, after, ys, rfl, hbefore, hx⟩
    rw [List.mapM_append, hbefore, List.mapM_cons, hx]
    rfl

/-! ### Culprits -/

/-- The character number `p` of the text is the one because of which it is rejected: what stands
before it is scanned, and it cannot be read. -/
structure IsCulprit (file : String) (text : List Char) (p : Nat) (cause : LexicalCause) : Prop where
  accepted : ∃ tokens, scan file (String.ofList (text.take p)) = .ok tokens
  offends : ∃ c after, text.drop p = c :: after ∧ Offends (text.take p) c after cause

theorem IsCulprit.lt {file : String} {text : List Char} {p : Nat} {cause : LexicalCause}
    (h : IsCulprit file text p cause) : p < text.length := by
  obtain ⟨-, c, after, hdrop, -⟩ := h
  have hlength := congrArg List.length hdrop
  rw [List.length_drop, List.length_cons] at hlength
  omega

theorem Offends.forget {before : List Char} {c : Char} {after : List Char} {cause : LexicalCause}
    (h : Offends before c after cause) : Offends [] c after cause := by
  cases h with
  | unexpected h => exact .unexpected h
  | unpaired h hnext => exact .unpaired h hnext
  | tooLarge h _ hvalue => exact .tooLarge h nofun hvalue

theorem Offends.recall {c : Char} {after : List Char} {cause : LexicalCause}
    (h : Offends [] c after cause) {before : List Char}
    (hbefore : isDigit c = true → ∀ b ∈ before.getLast?, isNamePart b = false) :
    Offends before c after cause := by
  cases h with
  | unexpected h => exact .unexpected h
  | unpaired h hnext => exact .unpaired h hnext
  | tooLarge h _ hvalue => exact .tooLarge h (hbefore h) hvalue

theorem Offends.isLayout_eq_false {before : List Char} {c : Char} {after : List Char}
    {cause : LexicalCause} (h : Offends before c after cause) : isLayout c = false := by
  cases h with
  | unexpected h =>
    simp only [isKnown, Bool.or_eq_false_iff] at h
    exact h.1.2
  | unpaired h => rcases h with rfl | rfl <;> rfl
  | tooLarge h => exact isLayout_of_isDigit h

/-- A character that offends behind a text that is scanned does not belong to the last token. -/
theorem not_joins_of_offends {place : Position} {before : List Char} {ts : List Token}
    (hbefore : (drafts place none before).mapM Draft.finish = .ok ts) {c : Char}
    {after : List Char} {cause : LexicalCause} (h : Offends before c after cause) {d : Draft}
    (hd : d ∈ inProgress place none before) : d.joins c = false := by
  by_contra hjoins
  rw [Bool.not_eq_false] at hjoins
  cases h with
  | unexpected h =>
    rw [isKnown_of_joins hjoins] at h
    contradiction
  | unpaired h =>
    -- The draft in progress would be the same character alone, which is no token.
    obtain ⟨t, ht⟩ := exists_ok_of_mapM hbefore (mem_drafts_of_inProgress hd)
    rw [Draft.finish_eq, characters_of_joins_pair h hjoins] at ht
    rcases h with rfl | rfl <;> contradiction
  | tooLarge h hlast =>
    rcases List.eq_nil_or_concat before with rfl | ⟨init, b, rfl⟩
    · contradiction
    · rw [List.concat_eq_append] at hd hlast
      have hpart := (joins_isDigit_iff_getLast? hd h).mp hjoins
      rw [hlast b List.getLast?_concat] at hpart
      contradiction

theorem exists_scan_eq_ok_iff {file source : String} :
    (∃ tokens, scan file source = .ok tokens) ↔
      ∃ ts, (drafts ⟨file, 1, 1⟩ none source.toList).mapM Draft.finish = .ok ts := by
  rw [scan_eq]
  cases (drafts ⟨file, 1, 1⟩ none source.toList).mapM Draft.finish <;> simp [Except.map]

theorem scan_eq_error_iff {file source : String} {fault : Fault} :
    scan file source = .error fault ↔
      (drafts ⟨file, 1, 1⟩ none source.toList).mapM Draft.finish = .error fault := by
  rw [scan_eq]
  cases (drafts ⟨file, 1, 1⟩ none source.toList).mapM Draft.finish <;> simp [Except.map]

theorem finish_eq_error_iff {d : Draft} {fault : Fault} :
    d.finish = .error fault ↔ ∃ cause, read d.characters = .error cause ∧
      fault = .lexical cause d.start := by
  rw [Draft.finish_eq]
  cases read d.characters <;> simp [eq_comm]

/-- A text with a culprit is rejected there. -/
theorem scan_of_culprit {file source : String} {p : Nat} {cause : LexicalCause}
    (h : IsCulprit file source.toList p cause) :
    scan file source = .error (.lexical cause (placeOf file source.toList p)) := by
  obtain ⟨haccepted, c, after, hdrop, hoffends⟩ := h
  obtain ⟨ts, hts⟩ := exists_scan_eq_ok_iff.mp haccepted
  rw [String.toList_ofList] at hts
  have htext : source.toList = source.toList.take p ++ c :: after := by
    rw [← hdrop, List.take_append_drop]
  obtain ⟨d, others, hdrafts, hstart, -, hcharacters⟩ := exists_drafts_cons
    (placeAfter ⟨file, 1, 1⟩ (source.toList.take p)) hoffends.isLayout_eq_false after
  have hcut : drafts ⟨file, 1, 1⟩ none source.toList =
      drafts ⟨file, 1, 1⟩ none (source.toList.take p) ++ d :: others := by
    rw [← hdrafts, ← drafts_append, ← htext]
    rintro _ ⟨⟩ e he
    exact not_joins_of_offends hts hoffends he
  have hfinish : d.finish = .error (.lexical cause (placeOf file source.toList p)) := by
    refine finish_eq_error_iff.mpr ⟨cause, ?_, by rw [hstart, placeAfter_eq]; rfl⟩
    rw [hcharacters]
    exact (read_lexemeFrom_eq_error_iff hoffends.isLayout_eq_false).mpr hoffends.forget
  exact scan_eq_error_iff.mpr (mapM_eq_error_iff.mpr ⟨_, d, others, ts, hcut, hts, hfinish⟩)

/-- A text that is rejected has a culprit. -/
theorem exists_culprit {file source : String} {fault : Fault}
    (h : scan file source = .error fault) : ∃ p cause, IsCulprit file source.toList p cause := by
  obtain ⟨ds, d, others, ts, hdrafts, hts, hfinish⟩ :=
    mapM_eq_error_iff.mp (scan_eq_error_iff.mp h)
  obtain ⟨before, c, after, htext, hlayout, rfl, hjoins⟩ := exists_cut hdrafts (.inl rfl)
  obtain ⟨cause, hread, -⟩ := finish_eq_error_iff.mp hfinish
  have hrest : drafts (placeAfter ⟨file, 1, 1⟩ before) none (c :: after) = d :: others := by
    refine List.append_cancel_left ((drafts_append _ none before ?_).symm.trans ?_)
    · rintro _ ⟨⟩
      exact hjoins
    · rw [← htext, hdrafts]
  obtain ⟨first, rest, hfirst, -, -, hcharacters⟩ :=
    exists_drafts_cons (placeAfter ⟨file, 1, 1⟩ before) hlayout after
  obtain ⟨rfl, -⟩ := List.cons.inj (hrest.symm.trans hfirst)
  rw [hcharacters] at hread
  have hoffends : Offends before c after cause := by
    refine ((read_lexemeFrom_eq_error_iff hlayout).mp hread).recall fun hdigit b hb ↦ ?_
    obtain ⟨init, rfl⟩ := List.getLast?_eq_some_iff.mp hb
    by_contra hpart
    rw [Bool.not_eq_false] at hpart
    -- Behind a part of a name a draft is in progress that the digit would join.
    have hb' : isLayout b = false := by
      rw [isNamePart, Bool.or_eq_true] at hpart
      exact hpart.elim isLayout_of_isNameStart isLayout_of_isDigit
    obtain ⟨e, he⟩ := exists_inProgress ⟨file, 1, 1⟩ init hb'
    have hjoined := (joins_isDigit_iff_getLast? he hdigit).mpr hpart
    rw [hjoins e he] at hjoined
    contradiction
  refine ⟨before.length, cause, ?_, c, after, ?_, ?_⟩
  · rw [htext, List.take_left]
    exact exists_scan_eq_ok_iff.mpr ⟨ts, by rwa [String.toList_ofList]⟩
  · rw [htext, List.drop_left]
  · rwa [htext, List.take_left]

/-- A source is rejected if and only if it has a culprit: a character that cannot be read behind a
text that is scanned. It has no other one, and the fault points at it and tells what is wrong with
it. The characters of a source are read from its bytes, where every byte that writes no character is
the replacement character. -/
theorem scan_rejects (file source : String) :
    ((∃ fault, scan file source = .error fault) ↔
      ∃ p cause, IsCulprit file source.toList p cause) ∧
    (∀ p cause, IsCulprit file source.toList p cause →
      scan file source = .error (.lexical cause (placeOf file source.toList p)) ∧
      ∀ q other, IsCulprit file source.toList q other → q = p) ∧
    ∀ bytes chars, Text.Utf8.Reads bytes chars ↔ (Text.Utf8.decode bytes).toList = chars := by
  refine ⟨⟨fun ⟨fault, hfault⟩ ↦ exists_culprit hfault, ?_⟩, ?_, fun _ _ ↦
    Text.Utf8.reads_iff_decode⟩
  · rintro ⟨p, cause, hculprit⟩
    exact ⟨_, scan_of_culprit hculprit⟩
  · intro p cause hp
    refine ⟨scan_of_culprit hp, fun q other hq ↦ ?_⟩
    have hsame := (scan_of_culprit hp).symm.trans (scan_of_culprit hq)
    injection hsame with hsame
    injection hsame with _ hplace
    rcases Nat.lt_trichotomy q p with hlt | heq | hgt
    · exact absurd hplace.symm (before_placeOf file _ hlt hp.lt.le).ne
    · exact heq
    · exact absurd hplace (before_placeOf file _ hgt hq.lt.le).ne

/-- A number that is too large, with zeros in front, stands on the second line behind a tab. A byte
that writes no character, between two that do, is read as one replacement character. -/
theorem scan_rejects_number :
    IsCulprit "p" "a1 = 7\n\t0009223372036854775808;".toList 8
        (.tooLarge "0009223372036854775808") ∧
      scan "p" "a1 = 7\n\t0009223372036854775808;" =
        .error (.lexical (.tooLarge "0009223372036854775808") ⟨"p", 2, 2⟩) ∧
      (∀ q other, IsCulprit "p" "a1 = 7\n\t0009223372036854775808;".toList q other → q = 8) ∧
      Text.Utf8.Reads [0x61, 0xff, 0xc3, 0xa9] ['a', Char.ofNat 0xfffd, Char.ofNat 0xe9] := by
  have hculprit : IsCulprit "p" "a1 = 7\n\t0009223372036854775808;".toList 8
      (.tooLarge "0009223372036854775808") :=
    ⟨⟨_, rfl⟩, '0', _, rfl, .tooLarge rfl (by rintro _ ⟨⟩; rfl) (by decide)⟩
  obtain ⟨-, hscan, hbytes⟩ := scan_rejects "p" "a1 = 7\n\t0009223372036854775808;"
  obtain ⟨hfault, hunique⟩ := hscan 8 _ hculprit
  refine ⟨hculprit, hfault, hunique, (hbytes _ _).mpr ?_⟩
  simp [Text.Utf8.decode, Text.Utf8.decodeOnto, Text.Utf8.sequence?, Text.Utf8.collect?,
    Text.Utf8.continuation?, Text.Utf8.scalar?, Text.Utf8.replacement]

end ExprLang.Token
