import ExprLang.Proofs.Yaml.Values
import ExprLang.Yaml.Scalar
import Mathlib.Data.List.TakeWhile

/-!
What plain scalars mean that the writer leaves without quotes: numbers without a sign.
-/

set_option autoImplicit false

namespace ExprLang.Yaml

namespace Meaning

open Text

variable {digits : List Char}

/-- No word with a meaning of its own starts with a digit. -/
theorem word?_of_isDigit {s : String} {c : Char} {rest : List Char} (hs : s.toList = c :: rest)
    (hc : isDigit c = true) : word? s = none := by
  have hhead : s.toList.head?.any isDigit = true := by
    rw [hs]
    exact hc
  unfold word?
  split
  all_goals first | rfl | exact absurd hhead (by decide)

theorem digit?_of_isDigit {c : Char} (hc : isDigit c = true) :
    Numeral.digit? c = some (c.toNat - '0'.toNat) ∧ c.toNat - '0'.toNat < 10 := by
  have hrange : '0' ≤ c ∧ c ≤ '9' := by simpa [isDigit] using hc
  refine ⟨by simp [Numeral.digit?, hrange], ?_⟩
  have hhigh : c.toNat ≤ '9'.toNat := hrange.2
  have hnine : '9'.toNat = '0'.toNat + 9 := rfl
  omega

theorem ne_underscore_of_isDigit {c : Char} (hc : isDigit c = true) : c ≠ '_' := by
  rintro rfl
  contradiction

theorem le_ofDigitChars (value : Nat) : value ≤ Nat.ofDigitChars 10 digits value := by
  induction digits generalizing value with
  | nil => exact Nat.le_refl value
  | cons c rest ih =>
    rw [Nat.ofDigitChars_cons]
    exact Nat.le_trans (by omega) (ih _)

theorem readDigits_eq (hdigits : ∀ c ∈ digits, isDigit c = true) {value : Nat}
    (hvalue : Nat.ofDigitChars 10 digits value < 0x10000000000000000) :
    Numeral.readDigits 10 value digits = .ok (Nat.ofDigitChars 10 digits value) := by
  induction digits generalizing value with
  | nil => rfl
  | cons c rest ih =>
    obtain ⟨hc, hrest⟩ := List.forall_mem_cons.mp hdigits
    obtain ⟨hdigit, hlt⟩ := digit?_of_isDigit hc
    rw [Nat.ofDigitChars_cons, Nat.mul_comm] at hvalue ⊢
    have hfits := Nat.lt_of_le_of_lt (le_ofDigitChars _) hvalue
    rw [Numeral.readDigits.eq_3 _ _ _ _ (ne_underscore_of_isDigit hc), hdigit]
    show (if 10 ≤ _ then _ else _) = _
    rw [if_neg (Nat.not_le.mpr hlt), if_neg (Nat.not_le.mpr hfits)]
    exact ih hrest hvalue

theorem separated_of_digits (hdigits : ∀ c ∈ digits, isDigit c = true) (afterDigit : Bool) :
    Numeral.separated afterDigit digits = true := by
  induction digits generalizing afterDigit with
  | nil => rfl
  | cons c rest ih =>
    obtain ⟨hc, hrest⟩ := List.forall_mem_cons.mp hdigits
    rw [Numeral.separated]
    · exact ih hrest true
    all_goals
      have hne := ne_underscore_of_isDigit hc
      simp [hne]

/-- A positive number starts with another digit than zero. -/
theorem head_toDigits {n : Nat} (hn : 0 < n) : (Nat.toDigits 10 n).head? ≠ some '0' := by
  induction n using Nat.strongRecOn with
  | ind n ih =>
    by_cases hsmall : n < 10
    · have hdigit : ∀ m, m < 10 → 0 < m → [Nat.digitChar m].head? ≠ some '0' := by decide
      rw [Nat.toDigits_of_lt_base hsmall]
      exact hdigit n hsmall hn
    · have hbase : 10 ≤ n := Nat.le_of_not_lt hsmall
      have hfront := ih (n / 10) (Nat.div_lt_self hn (by decide)) (Nat.div_pos hbase (by decide))
      rw [Nat.toDigits_of_base_le (by decide) hbase]
      obtain ⟨c, rest, hdigits⟩ : ∃ c rest, Nat.toDigits 10 (n / 10) = c :: rest :=
        List.exists_cons_of_ne_nil Nat.toDigits_ne_nil
      rw [hdigits] at hfront ⊢
      exact hfront

theorem isDigit_of_mem_toDigits {n : Nat} {c : Char} (h : c ∈ Nat.toDigits 10 n) :
    isDigit c = true := by
  have hdigit := Nat.isDigit_of_mem_toDigits (by decide) (by decide) h
  simp only [Char.isDigit, ge_iff_le, Bool.and_eq_true, decide_eq_true_eq] at hdigit
  simpa [isDigit, Char.le_def] using hdigit

theorem radix_of_head {c : Char} {rest : List Char} (hc : c ≠ '0') :
    Numeral.radix (c :: rest) = (10, c :: rest) := by
  unfold Numeral.radix
  split
  · next heq => exact absurd (List.cons.inj heq).1 hc
  · next heq => exact absurd (List.cons.inj heq).1 hc
  · rfl

/-- The digits of a positive number are read back. -/
theorem readSigned_toDigits {n : Nat} (hpos : 0 < n) (hlt : n < 0x8000000000000000) :
    Numeral.readSigned (Nat.toDigits 10 n) = .ok n := by
  have hdigits : ∀ c ∈ Nat.toDigits 10 n, isDigit c = true := fun _ ↦ isDigit_of_mem_toDigits
  have hvalue : Nat.ofDigitChars 10 (Nat.toDigits 10 n) 0 = n :=
    Nat.ofDigitChars_toDigits (by decide) (by decide)
  have hfits : Nat.ofDigitChars 10 (Nat.toDigits 10 n) 0 < 0x10000000000000000 := by omega
  have hread := readDigits_eq hdigits hfits
  have hhead := head_toDigits hpos
  rw [hvalue] at hread
  obtain ⟨c, rest, htext⟩ : ∃ c rest, Nat.toDigits 10 n = c :: rest :=
    List.exists_cons_of_ne_nil Nat.toDigits_ne_nil
  rw [htext] at hdigits hread hhead ⊢
  have hzero : c ≠ '0' := fun h ↦ hhead (congrArg some h)
  have hunsigned : Numeral.readUnsigned (c :: rest) = .ok n := by
    simp [Numeral.readUnsigned, radix_of_head hzero, hread, separated_of_digits hdigits]
  have hsign : c ≠ '-' ∧ c ≠ '+' := by
    have hc := hdigits c List.mem_cons_self
    constructor <;>
    · rintro rfl
      contradiction
  unfold Numeral.readSigned
  split
  next negative digits hmatch =>
    split at hmatch
    · next heq => exact absurd (List.cons.inj heq).1 hsign.1
    · next heq => exact absurd (List.cons.inj heq).1 hsign.2
    · obtain ⟨rfl, rfl⟩ := Prod.mk.inj hmatch
      simp [hunsigned, hlt]

/-- A number is taken for a number. -/
theorem ofScalar_toDigits {n : Nat} (hpos : 0 < n) (hlt : n < 0x8000000000000000) :
    ofScalar (String.ofList (Nat.toDigits 10 n)) = .int n := by
  have hread := readSigned_toDigits hpos hlt
  have hdigits : ∀ c ∈ Nat.toDigits 10 n, isDigit c = true := fun _ ↦ isDigit_of_mem_toDigits
  obtain ⟨c, rest, htext⟩ : ∃ c rest, Nat.toDigits 10 n = c :: rest :=
    List.exists_cons_of_ne_nil Nat.toDigits_ne_nil
  rw [htext] at hread hdigits ⊢
  have hc := hdigits c List.mem_cons_self
  have htime : isTime (c :: rest) = false := by
    have hyear : (c :: rest).takeWhile isDigit = c :: rest :=
      List.takeWhile_eq_self_iff.mpr hdigits
    have hdate : date? (c :: rest) = none := by
      unfold date?
      simp only [hyear]
      by_cases hlength : (c :: rest).length = 4
      · have hrest : (c :: rest).drop 4 = [] := List.drop_of_length_le (Nat.le_of_eq hlength)
        rw [hrest]
        simp [past?]
      · rw [if_pos hlength]
        rfl
    rw [isTime, hdate]
  have hfilter : (c :: rest).filter (· ≠ '_') = c :: rest := by
    refine List.filter_eq_self.mpr fun d hd ↦ ?_
    simpa using ne_underscore_of_isDigit (hdigits d hd)
  have hnumber : number? (c :: rest) = some (.int n) := by
    have hint : int? (c :: rest) = some (.int n) := by
      rw [int?, hread]
    rw [number?, hfilter, hint]
    rfl
  unfold ofScalar ofLook
  rw [String.toList_ofList]
  show (word? _).getD (if _ then if _ then _ else (number? (c :: rest)).getD _ else _) = _
  rw [word?_of_isDigit String.toList_ofList hc, hc, htime, hnumber]
  rfl

end Meaning

end ExprLang.Yaml
