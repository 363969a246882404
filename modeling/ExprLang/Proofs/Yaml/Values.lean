import ExprLang.Proofs.Yaml.Plain

/-!
What the writer puts behind the colon of a key: a plain scalar, or one in quotes. Either way it
stands for the text that was given (`Writer.writes_scalar`).
-/

set_option autoImplicit false

namespace ExprLang.Yaml

/-- In a mapping at this column, what is written stands for a scalar with this text. -/
inductive Writes (column : Nat) : (written : List Char) → (text : String) → (isPlain : Bool) → Prop
  | plain {margin : Nat} {text written : List Char} (hmargin : column < margin)
      (h : Laid .plain margin text written) (hplain : Style.allowsPlain text = true) :
      Writes column written (String.ofList text) true
  | quoted {isDouble : Bool} {margin : Nat} {text written : List Char} (hmargin : 0 < margin)
      (h : Laid (quoteStyle isDouble) margin text written) :
      Writes column (quoteMark isDouble :: (written ++ [quoteMark isDouble])) (String.ofList text)
        false

namespace Style

theorem unbroken_of_allowsPlain {text : List Char} (h : allowsPlain text = true) :
    Unbroken text := by
  simp only [allowsPlain, Bool.and_eq_true, Bool.not_eq_true', decide_eq_true_eq] at h
  obtain ⟨⟨⟨-, hpairs⟩, hblank⟩, hcolon⟩ := h
  exact ⟨hpairs, hblank, hcolon⟩

/-- A dash, a question mark or a colon starts a plain scalar only before another word character. -/
theorem start_of_allowsPlain {text : List Char} (h : allowsPlain text = true) :
    ∃ first rest, text = first :: rest ∧ first ≠ ' ' ∧ isReserved first = false ∧
      (first = '-' ∨ first = '?' ∨ first = ':' → ∃ c more, rest = c :: more ∧ c ≠ ' ') := by
  have hstart : badStart text = false := by
    simp only [allowsPlain, Bool.and_eq_true, Bool.not_eq_true'] at h
    exact h.1.1.1.2
  cases text with
  | nil => contradiction
  | cons first rest =>
    refine ⟨first, rest, rfl, ?_⟩
    unfold badStart at hstart
    split at hstart
    · contradiction
    · contradiction
    · next heq =>
      obtain ⟨rfl, rfl⟩ := List.cons.inj heq
      simp only [Bool.or_eq_false_iff, decide_eq_false_iff_not] at hstart
      obtain ⟨⟨hblank, hreserved⟩, hnext⟩ := hstart
      refine ⟨hblank, hreserved, fun hmark ↦ ?_⟩
      have hmarks : (first = '?' || first = ':' || first = '-') = true := by
        rcases hmark with rfl | rfl | rfl <;> rfl
      rw [hmarks, Bool.true_and] at hnext
      cases rest with
      | nil => contradiction
      | cons c more =>
        refine ⟨c, more, rfl, ?_⟩
        rintro rfl
        contradiction
    · contradiction

theorem isDigit_cases {c : Char} (hc : isDigit c = true) :
    IsPrintable c ∧ (∀ other ∈ " -?:.".toList, c ≠ other) ∧ isReserved c = false := by
  have hrange : '0' ≤ c ∧ c ≤ '9' := by simpa [isDigit] using hc
  have hmarks : ∀ other ∈ " -?:.".toList, ¬('0' ≤ other ∧ other ≤ '9') := by decide
  have hreserved : ∀ other ∈ "#,[]\x7b\x7d&*!|>'\x22%@`".toList,
      ¬('0' ≤ other ∧ other ≤ '9') := by
    decide
  refine ⟨⟨Nat.le_trans (by decide) hrange.1, Nat.le_trans hrange.2 (by decide)⟩,
    fun other hother ↦ ?_, ?_⟩
  · rintro rfl
    exact hmarks c hother hrange
  · rw [isReserved, ← Bool.not_eq_true, List.contains_iff_mem]
    exact fun hmem ↦ hreserved c hmem hrange

theorem anyPair_ends_of_digits {text : List Char} (h : ∀ c ∈ text, isDigit c = true) :
    anyPair ends text = false := by
  induction text with
  | nil => rfl
  | cons c rest ih =>
    obtain ⟨hc, hrest⟩ := List.forall_mem_cons.mp h
    cases rest with
    | nil => rfl
    | cons d more =>
      have hends : ends c d = false := by
        obtain ⟨⟨hlow, -⟩, hmarks, -⟩ := isDigit_cases hc
        have htab : c ≠ '\t' := by
          rintro rfl
          contradiction
        have hblank : isBlank c = false := by
          simp [isBlank, hmarks ' ' (by decide), htab]
        simp [ends, hmarks ':' (by decide), hblank]
      rw [anyPair, hends, Bool.false_or]
      exact ih hrest

/-- Digits can stand without quotes. -/
theorem allowsPlain_of_digits {text : List Char} (hsome : text ≠ [])
    (h : ∀ c ∈ text, isDigit c = true) : allowsPlain text = true := by
  have hlast : ∀ other ∈ " -?:.".toList, text.getLast? ≠ some other := by
    intro other hother hlast
    exact (isDigit_cases (h _ (List.mem_of_getLast? hlast))).2.1 other hother rfl
  have hall : text.all (fun c ↦ isPlain c && !isBreak c) = true := by
    refine List.all_eq_true.mpr fun c hc ↦ ?_
    have hprintable := (isDigit_cases (h c hc)).1
    rw [hprintable.isPlain_eq, hprintable.isBreak_eq]
    rfl
  have hstart : badStart text = false := by
    obtain ⟨first, rest, rfl⟩ := List.exists_cons_of_ne_nil hsome
    obtain ⟨-, hmarks, hreserved⟩ := isDigit_cases (h first List.mem_cons_self)
    have hdash := hmarks '-' (by decide)
    have hdot := hmarks '.' (by decide)
    unfold badStart
    split
    · next heq => exact absurd (List.cons.inj heq).1 hdash
    · next heq => exact absurd (List.cons.inj heq).1 hdot
    · next heq =>
      obtain ⟨rfl, rfl⟩ := List.cons.inj heq
      simp [hmarks ' ' (by decide), hmarks '?' (by decide), hmarks ':' (by decide), hdash,
        hreserved]
    · contradiction
  simp [allowsPlain, hall, hstart, anyPair_ends_of_digits h, hlast ' ' (by decide),
    hlast ':' (by decide)]

end Style

namespace Laid

/-- Text that holds no blanks is written as it stands. -/
theorem of_no_blank (margin : Nat) {text : List Char}
    (htext : ∀ c ∈ text, IsPrintable c ∧ c ≠ ' ') : Laid .plain margin text text := by
  induction text with
  | nil => exact .nil
  | cons c rest ih =>
    obtain ⟨⟨hprintable, hblank⟩, hrest⟩ := List.forall_mem_cons.mp htext
    exact .character ⟨hprintable, .inl ⟨hblank, rfl⟩⟩ (ih hrest)

/-- What is written for a plain scalar can start one, whatever follows its line. -/
theorem exists_opens {margin : Nat} {text written : List Char}
    (h : Laid .plain margin text written) (hplain : Style.allowsPlain text = true)
    (behind : List Char) : ∃ first rest line, text = first :: rest ∧ written = first :: line ∧
      first ≠ ' ' ∧ first ≠ '#' ∧ IsPrintable first ∧
      Opens first ((line ++ '\n' :: behind).getD 0 endMark) := by
  obtain ⟨first, rest, rfl, hblank, hreserved, hnext⟩ := Style.start_of_allowsPlain hplain
  have hcomment : first ≠ '#' := by
    rintro rfl
    contradiction
  generalize hwritten : written = out at h
  cases h with
  | character hink hlaid =>
    obtain ⟨rfl, -⟩ := ink_plain hink
    subst hwritten
    refine ⟨first, rest, _, rfl, rfl, hblank, hcomment, hink.1, hreserved,
      hink.1.endsWord_eq hblank, fun hmark ↦ ?_⟩
    obtain ⟨c, more, rfl, hc⟩ := hnext hmark
    obtain ⟨hprintable, line, rfl⟩ := hlaid.solid_of_head hc
    exact hprintable.endsWord_eq hc
  | blank | fold => contradiction

theorem common_ink {style : Style} {c : Char} {ink : List Char} (h : style.Inks c ink) :
    ∀ c ∈ ink, IsCommon c := by
  obtain ⟨hc, ⟨-, rfl⟩ | ⟨-, -, rfl⟩⟩ := h
  · have hbackslash : IsPrintable '\\' := by decide
    rcases Writer.character_cases style hc with h | ⟨-, -, h⟩ | ⟨-, -, h⟩
    · simpa [h] using .inr hc
    · simpa [h] using .inr hc
    · simpa [h] using ⟨.inr hbackslash, .inr hc⟩
  · exact fun c hc ↦ .inr (by revert c; decide)

theorem common {style : Style} {margin : Nat} {text written : List Char}
    (h : Laid style margin text written) : ∀ c ∈ written, IsCommon c := by
  induction h with
  | nil => nofun
  | character hink _ ih => exact List.forall_mem_append.mpr ⟨common_ink hink, ih⟩
  | blank _ _ ih => exact List.forall_mem_cons.mpr ⟨.inr (by decide), ih⟩
  | fold _ _ ih =>
    exact List.forall_mem_append.mpr ⟨List.forall_mem_cons.mpr ⟨.inl rfl, common_spaces margin⟩, ih⟩

end Laid

theorem Writes.common {column : Nat} {written : List Char} {text : String} {isPlain : Bool}
    (h : Writes column written text isPlain) : ∀ c ∈ written, IsCommon c := by
  cases h with
  | plain _ hlaid _ => exact hlaid.common
  | @quoted isDouble _ _ _ _ hlaid =>
    have hmark : IsCommon (quoteMark isDouble) := by cases isDouble <;> exact .inr (by decide)
    simp only [List.forall_mem_cons, List.forall_mem_append]
    exact ⟨hmark, hlaid.common, hmark, nofun⟩

namespace Writer

variable {text : List Char}

/-- Printable text is never written as a block. -/
theorem ofText_cases (htext : ∀ c ∈ text, IsPrintable c) :
    Style.ofText text = .plain ∧ Style.readsAsText text = true ∧ Style.allowsPlain text = true ∨
      Style.ofText text = .single ∨ Style.ofText text = .double := by
  have hline : text.contains '\n' = false := by
    rw [← Bool.not_eq_true, List.contains_iff_mem]
    exact fun hmem ↦ (htext _ hmem).ne_lineEnd rfl
  unfold Style.ofText
  rw [hline, if_neg Bool.false_ne_true]
  split_ifs with hreads hplain hsingle
  · exact .inr (.inr rfl)
  · exact .inl ⟨rfl, by simpa using hreads, hplain⟩
  · exact .inr (.inl rfl)
  · exact .inr (.inr rfl)

/-- Whatever the style, what is written for a printable text stands for it. -/
theorem writes_scalar (htext : ∀ c ∈ text, IsPrintable c) (column start : Nat) :
    Writes column (scalar (Style.ofText text) column start text) (String.ofList text)
      (Style.ofText text = .plain) := by
  have hfolded : ∀ style start, Laid style (column + 2) text
      (folded style (column + 2) start .start text) :=
    fun style start ↦ laid_folded style (column + 2) htext start (by decide)
  rcases ofText_cases htext with ⟨hstyle, -, hplain⟩ | hstyle | hstyle
  · rw [hstyle]
    exact .plain (Nat.lt_add_of_pos_right (by decide)) (hfolded .plain start) hplain
  · rw [hstyle]
    have hquoted : Laid (quoteStyle false) (column + 2) text _ := hfolded .single (start + 1)
    exact .quoted (Nat.succ_pos _) hquoted
  · rw [hstyle]
    have hmark : text.head? ≠ some byteOrderMark := by
      intro hhead
      have hhigh := (htext _ (List.mem_of_head? hhead)).2
      contradiction
    have hwritten : doubleQuoted (column + 2) (start + 1) text =
        folded .double (column + 2) (start + 1) .start text := if_neg hmark
    have hquoted : Laid (quoteStyle true) (column + 2) text _ := hfolded .double (start + 1)
    rw [scalar, hwritten]
    exact .quoted (Nat.succ_pos _) hquoted

theorem writes_digits {text : List Char} (column : Nat) (hsome : text ≠ [])
    (htext : ∀ c ∈ text, isDigit c = true) : Writes column text (String.ofList text) true := by
  refine .plain (Nat.lt_succ_self column) (.of_no_blank _ fun c hc ↦ ?_)
    (Style.allowsPlain_of_digits hsome htext)
  obtain ⟨hprintable, hmarks, -⟩ := Style.isDigit_cases (htext c hc)
  exact ⟨hprintable, hmarks ' ' (by decide)⟩

theorem writes_bool (column : Nat) (value : Bool) :
    Writes column (if value then "true" else "false").toList (if value then "true" else "false")
      true := by
  have hwrites : ∀ text : String, (∀ c ∈ text.toList, IsPrintable c ∧ c ≠ ' ') →
      Style.allowsPlain text.toList = true → Writes column text.toList text true := by
    intro text htext hplain
    have h := Writes.plain (Nat.lt_succ_self column) (.of_no_blank _ htext) hplain
    rw [String.ofList_toList] at h
    exact h
  cases value with
  | false => exact hwrites "false" (by decide) (by decide)
  | true => exact hwrites "true" (by decide) (by decide)

end Writer

end ExprLang.Yaml
