import ExprLang.Proofs.Yaml.Encoding
import ExprLang.Yaml.Writer

/-!
How the writer lays a text out. Wherever it starts and whatever the width of a line, a space of the
text is written as it is or as a line end with an indentation behind it, never next to a blank; and
double quotes can keep a space with a backslash. All other characters are written one by one
(`laid_folded`).
-/

set_option autoImplicit false

namespace ExprLang.Yaml

/-- What a character that is not just a blank is written as. -/
def Style.Inks (style : Style) (c : Char) (written : List Char) : Prop :=
  IsPrintable c ∧ (c ≠ ' ' ∧ written = Writer.character style c ∨
    style = .double ∧ c = ' ' ∧ written = ['\\', ' '])

/-- A scalar with this text can be written so, if folded lines start at column `margin`. -/
inductive Laid (style : Style) (margin : Nat) : (text written : List Char) → Prop
  | nil : Laid style margin [] []
  | character {c : Char} {ink text written : List Char} (hink : style.Inks c ink)
      (h : Laid style margin text written) : Laid style margin (c :: text) (ink ++ written)
  | blank {text written : List Char} (h : Laid style margin text written)
      (hnext : written.head? ≠ some '\n') : Laid style margin (' ' :: text) (' ' :: written)
  | fold {text written : List Char} {next : Char} (h : Laid style margin text (next :: written))
      (hnext : next ≠ ' ' ∧ next ≠ '\n') :
      Laid style margin (' ' :: text) ('\n' :: Writer.spaces margin ++ next :: written)

theorem IsPrintable.isBreak_eq {c : Char} (hc : IsPrintable c) : isBreak c = false := by
  have hne : c ≠ '\n' ∧ c ≠ '\r' := by
    constructor <;> (rintro rfl; obtain ⟨hlow, -⟩ := hc; contradiction)
  obtain ⟨hlow, hhigh⟩ := hc
  have h85 : c.toNat ≠ 0x85 := by omega
  have h2028 : c.toNat ≠ 0x2028 := by omega
  have h2029 : c.toNat ≠ 0x2029 := by omega
  simp [isBreak, hne, h85, h2028, h2029]

theorem IsPrintable.isPlain_eq {c : Char} (hc : IsPrintable c) : isPlain c = true := by
  obtain ⟨hlow, hhigh⟩ := hc
  simp [isPlain, hlow, hhigh]

namespace Writer

/-- Printable characters are written in quotes as they are, twice, or behind a backslash. -/
theorem character_cases (style : Style) {c : Char} (hc : IsPrintable c) :
    character style c = [c] ∨ (style = .single ∧ c = '\x27' ∧ character style c = [c, c]) ∨
      (style = .double ∧ (c = '\x22' ∨ c = '\\') ∧ character style c = ['\\', c]) := by
  cases style with
  | plain | literal => exact .inl rfl
  | single =>
    by_cases hquote : c = '\x27'
    · exact .inr (.inl ⟨rfl, hquote, if_pos hquote⟩)
    · exact .inl (if_neg hquote)
  | double =>
    by_cases hescaped : c = '\x22' ∨ c = '\\'
    · refine .inr (.inr ⟨rfl, hescaped, ?_⟩)
      rcases hescaped with rfl | rfl <;> rfl
    · push Not at hescaped
      left
      simp [character, hc.isPlain_eq, hc.isBreak_eq, hescaped]

/-- What is written for a character starts with neither a blank nor a line end. -/
theorem exists_character (style : Style) {c : Char} (hc : IsPrintable c) (hblank : c ≠ ' ') :
    ∃ first more, character style c = first :: more ∧ first ≠ ' ' ∧ first ≠ '\n' := by
  have hbreak : c ≠ '\n' := by
    rintro rfl
    exact absurd hc.isBreak_eq (by decide)
  rcases character_cases style hc with h | ⟨-, -, h⟩ | ⟨-, -, h⟩
  · exact ⟨c, [], h, hblank, hbreak⟩
  · exact ⟨c, [c], h, hblank, hbreak⟩
  · exact ⟨'\\', [c], h, by decide, by decide⟩

section Folded

variable {style : Style} {indent column : Nat} {last : Last} {rest : List Char}

theorem folded_character {c : Char} (hc : IsPrintable c) (hblank : c ≠ ' ')
    (hlast : last ≠ .lineEnd) :
    folded style indent column last (c :: rest) = character style c ++
      folded style indent (column + (character style c).length) .other rest := by
  rw [folded]
  simp [hblank, hc.isBreak_eq, hlast]

theorem folded_space_blank : folded style indent column .space (' ' :: rest) =
    ' ' :: folded style indent (column + 1) .space rest := by
  rw [folded]
  simp

/-- A space is written as it is, or a line is folded there. -/
theorem folded_blank_cases (style : Style) (indent column : Nat) (last : Last)
    (rest : List Char) :
    folded style indent column last (' ' :: rest) =
        ' ' :: folded style indent (column + 1) .space rest ∨
      (∃ c more, rest = c :: more ∧ c ≠ ' ') ∧
        folded style indent column last (' ' :: rest) =
          '\n' :: spaces indent ++ folded style indent indent .space rest ∨
      style = .double ∧ ∃ more, rest = ' ' :: more ∧
        folded style indent column last (' ' :: rest) =
          '\n' :: spaces indent ++ '\\' :: ' ' :: folded style indent (indent + 2) .space more := by
  rw [folded, if_pos rfl]
  simp only [Bool.and_eq_true, Bool.or_eq_true, decide_eq_true_eq, Bool.not_eq_true',
    decide_eq_false_iff_not]
  split_ifs with hfold hnext
  · obtain ⟨more, rfl⟩ : ∃ more, rest = ' ' :: more := by
      cases rest with
      | nil => simp at hnext
      | cons c more => exact ⟨more, by simpa using hnext⟩
    have hdouble : style = .double := by simpa using hfold.2
    exact .inr (.inr ⟨hdouble, more, rfl, by rw [folded_space_blank]⟩)
  · obtain ⟨c, more, rfl⟩ : ∃ c more, rest = c :: more := by
      cases rest with
      | nil => simp at hfold
      | cons c more => exact ⟨c, more, rfl⟩
    exact .inr (.inl ⟨⟨c, more, rfl, by simpa using hnext⟩, rfl⟩)
  · exact .inl rfl

end Folded

/-- What is written behind a blank does not start with a line end. -/
theorem head?_folded_space {style : Style} {indent column : Nat} {text : List Char}
    (htext : ∀ c ∈ text, IsPrintable c) :
    (folded style indent column .space text).head? ≠ some '\n' := by
  cases text with
  | nil => simp [folded]
  | cons c rest =>
    by_cases hblank : c = ' '
    · subst hblank
      rw [folded_space_blank]
      simp
    · have hc := htext c List.mem_cons_self
      obtain ⟨first, more, hwritten, -, hbreak⟩ := exists_character style hc hblank
      rw [folded_character hc hblank (by decide), hwritten]
      simpa using hbreak

/-- The writer lays out printable text. -/
theorem laid_folded (style : Style) (indent : Nat) {text : List Char}
    (htext : ∀ c ∈ text, IsPrintable c) (column : Nat) {last : Last} (hlast : last ≠ .lineEnd) :
    Laid style indent text (folded style indent column last text) := by
  induction hlength : text.length using Nat.strongRecOn generalizing text column last with
  | ind n ih =>
    cases text with
    | nil =>
      rw [folded]
      exact .nil
    | cons c rest =>
      obtain ⟨hc, hrest⟩ := List.forall_mem_cons.mp htext
      rw [List.length_cons] at hlength
      by_cases hblank : c = ' '
      · subst hblank
        have hlaid : ∀ column, Laid style indent rest (folded style indent column .space rest) :=
          fun column ↦ ih rest.length (by omega) hrest column (by decide) rfl
        rcases folded_blank_cases style indent column last rest with
          h | ⟨⟨d, more, rfl, hd⟩, h⟩ | ⟨rfl, more, rfl, h⟩
        · rw [h]
          exact .blank (hlaid _) (head?_folded_space hrest)
        · have hprintable := hrest d List.mem_cons_self
          obtain ⟨first, ink, hwritten, hfirst⟩ := exists_character style hprintable hd
          have hnext := hlaid indent
          rw [h]
          rw [folded_character hprintable hd (by decide), hwritten] at hnext ⊢
          exact .fold hnext hfirst
        · obtain ⟨hspace, hmore⟩ := List.forall_mem_cons.mp hrest
          rw [List.length_cons] at hlength
          have hlater : Laid .double indent more (folded .double indent (indent + 2) .space more) :=
            ih more.length (by omega) hmore _ (by decide) rfl
          rw [h]
          exact .fold (.character ⟨hspace, .inr ⟨rfl, rfl, rfl⟩⟩ hlater) (by decide)
      · rw [folded_character hc hblank hlast]
        refine .character ⟨hc, .inl ⟨hblank, rfl⟩⟩ ?_
        exact ih rest.length (by omega) hrest _ (by decide) rfl

end Writer

end ExprLang.Yaml
