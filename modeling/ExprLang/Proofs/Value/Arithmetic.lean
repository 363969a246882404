import ExprLang.Proofs.Value.Equality
import Mathlib.Data.Int.ModEq

/-!
Arithmetic on values. A sum, difference or product is the one integer of 64 bits that is congruent
to the exact result (`wrapsTo_iff`), a quotient is truncated and only one of them does not fit
(`toInt_div`), and comparisons are those of the integers. A bit may stand wherever the number does
that it counts as (`apply_widened`). Together this is `integer_operations`.
-/

set_option autoImplicit false

namespace ExprLang

/-! ### Integers of 64 bits -/

/-- `n` is an integer of 64 bits that `exact` wraps around to. -/
def WrapsTo (exact n : Int) : Prop :=
  -0x8000000000000000 ≤ n ∧ n < 0x8000000000000000 ∧ n ≡ exact [ZMOD 0x10000000000000000]

/-- There is exactly one integer that another one wraps around to. -/
theorem wrapsTo_iff (exact n : Int) : WrapsTo exact n ↔ n = exact.bmod (2 ^ 64) := by
  have hcast : ((2 ^ 64 : Nat) : Int) = 0x10000000000000000 := rfl
  unfold WrapsTo Int.ModEq
  rw [Int.bmod_def, hcast]
  constructor
  · rintro ⟨hlow, hhigh, hmod⟩
    split_ifs <;> omega
  · intro h
    subst h
    split_ifs <;> omega

/-- The quotient truncates toward zero, unless the least integer is divided by minus one. -/
theorem toInt_div {l r : Int64} :
    (l / r).toInt =
      if l = Int64.minValue ∧ r = -1 then Int64.minValue.toInt else l.toInt.tdiv r.toInt := by
  by_cases hedge : l = Int64.minValue ∧ r = -1
  · obtain ⟨rfl, rfl⟩ := hedge
    rfl
  · rw [if_neg hedge]
    by_cases hl : l = Int64.minValue
    · exact Int64.toInt_div_of_ne_right l r fun hr ↦ hedge ⟨hl, hr⟩
    · exact Int64.toInt_div_of_ne_left l r hl

/-! ### Bits as numbers -/

namespace Value

/-- A bit as the number that it counts as; all else as it is. -/
def widened : Value → Value
  | bit b => int (if b then 1 else 0)
  | v => v

theorem asInt_widened (operation : String) (v : Value) :
    v.widened.asInt operation = v.asInt operation := by
  cases v <;> rfl

/-- Equality sees no difference between a bit and the number that it counts as. -/
theorem look_widened (h : Heap) (v : Value) : v.widened.look h = v.look h := by
  cases v <;> rfl

theorem equal_widened (h : Heap) (v w : Value) :
    v.widened.equal h w = v.equal h w ∧ v.equal h w.widened = v.equal h w := by
  constructor
  · rw [Bool.eq_iff_iff, equal_iff_look_eq, equal_iff_look_eq, look_widened]
  · rw [Bool.eq_iff_iff, equal_iff_look_eq, equal_iff_look_eq, look_widened]

end Value

namespace Operator

/-- Logic has no use for numbers; to every other operator a bit is as good as its number. -/
theorem apply_widened {op : Operator} (hand : op ≠ and) (hor : op ≠ or) (h : Heap)
    (v w : Value) :
    op.apply h v.widened w = op.apply h v w ∧ op.apply h v w.widened = op.apply h v w := by
  obtain ⟨hleft, hright⟩ := Value.equal_widened h v w
  cases op with
  | and | or => contradiction
  | equal | notEqual => simp only [apply, hleft, hright, and_self]
  | _ => simp only [apply, Value.asInt_widened, and_self]

/-- On two integers, sums, differences and products wrap around to 64 bits, division fails for zero
only and truncates, apart from the one quotient that does not fit and wraps around, and comparisons
are those of the integers. Arithmetic and comparisons, equality among them, do the same with a bit
as with the number that it counts as, on either side and whatever is on the other. -/
theorem integer_operations (h : Heap) :
    (∀ l r : Int64,
      (∃ n : Int64, add.apply h (.int l) (.int r) = .ok (.int n) ∧
        ∀ k, WrapsTo (l.toInt + r.toInt) k ↔ k = n.toInt) ∧
      (∃ n : Int64, subtract.apply h (.int l) (.int r) = .ok (.int n) ∧
        ∀ k, WrapsTo (l.toInt - r.toInt) k ↔ k = n.toInt) ∧
      (∃ n : Int64, multiply.apply h (.int l) (.int r) = .ok (.int n) ∧
        ∀ k, WrapsTo (l.toInt * r.toInt) k ↔ k = n.toInt) ∧
      (if r = 0 then divide.apply h (.int l) (.int r) = .error (.runtime .divisionByZero)
        else ∃ n : Int64, divide.apply h (.int l) (.int r) = .ok (.int n) ∧
          n.toInt = if l = Int64.minValue ∧ r = -1 then -0x8000000000000000
            else l.toInt.tdiv r.toInt) ∧
      less.apply h (.int l) (.int r) = .ok (.bit (l.toInt < r.toInt)) ∧
      lessEqual.apply h (.int l) (.int r) = .ok (.bit (l.toInt ≤ r.toInt)) ∧
      greater.apply h (.int l) (.int r) = .ok (.bit (l.toInt > r.toInt)) ∧
      greaterEqual.apply h (.int l) (.int r) = .ok (.bit (l.toInt ≥ r.toInt))) ∧
    ∀ op, op ≠ and → op ≠ or → ∀ v w : Value,
      op.apply h v.widened w = op.apply h v w ∧ op.apply h v w.widened = op.apply h v w := by
  constructor
  · intro l r
    refine ⟨⟨l + r, rfl, ?_⟩, ⟨l - r, rfl, ?_⟩, ⟨l * r, rfl, ?_⟩, ?_, ?_, ?_, ?_, ?_⟩
    · intro k
      rw [wrapsTo_iff, Int64.toInt_add]
    · intro k
      rw [wrapsTo_iff, Int64.toInt_sub]
    · intro k
      rw [wrapsTo_iff, Int64.toInt_mul]
    · by_cases hr : r = 0
      · subst hr
        rfl
      · rw [if_neg hr]
        refine ⟨l / r, ?_, toInt_div⟩
        show (if r = 0 then _ else _) = _
        rw [if_neg hr]
    · show Except.ok (Value.bit (l < r)) = _
      simp only [Int64.lt_iff_toInt_lt]
    · show Except.ok (Value.bit (l ≤ r)) = _
      simp only [Int64.le_iff_toInt_le]
    · show Except.ok (Value.bit (r < l)) = _
      simp only [Int64.lt_iff_toInt_lt, gt_iff_lt]
    · show Except.ok (Value.bit (r ≤ l)) = _
      simp only [Int64.le_iff_toInt_le, ge_iff_le]
  · intro op hand hor v w
    exact apply_widened hand hor h v w

/-- The quotient that does not fit, and a bit that equals the number which it counts as. -/
theorem integer_operations_edges :
    (∃ n : Int64, divide.apply .empty (.int Int64.minValue) (.int (-1)) = .ok (.int n) ∧
      n.toInt = -0x8000000000000000) ∧
    add ≠ and ∧ add ≠ or ∧
      add.apply .empty (.int 1) (.bit true) = add.apply .empty (.bit true) (.bit true) ∧
    equal.apply .empty (.bit true) (.int 1) = .ok (.bit true) := by
  obtain ⟨hints, hbits⟩ := integer_operations .empty
  obtain ⟨-, -, -, hquotient, -⟩ := hints Int64.minValue (-1)
  rw [if_neg (by decide)] at hquotient
  obtain ⟨n, hn, hvalue⟩ := hquotient
  rw [if_pos ⟨rfl, rfl⟩] at hvalue
  have hsum := (hbits add (by decide) (by decide) (.bit true) (.bit true)).1
  have hequal := (hbits equal (by decide) (by decide) (.bit true) (.int 1)).1
  exact ⟨⟨n, hn, hvalue⟩, by decide, by decide, hsum, hequal.symm.trans rfl⟩

end Operator

end ExprLang
