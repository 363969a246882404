import ExprLang.Value
import Mathlib.Data.List.Basic

/-!
Equality of values. What equality sees of a value is its look: a bit is the number that it counts
as, an array its cells, a function its site. Values are equal exactly when they look the same
(`equal_iff_look_eq`), and apart from functions the look can be read off the text
(`Look.eq_of_text_eq`): texts of different kinds begin differently, numbers are written in one way
only (`toList_repr_injective`), and the commas between them show where each one ends
(`eq_of_intercalate_eq`).
-/

set_option autoImplicit false

namespace ExprLang

/-! ### Looks -/

/-- What equality sees of a value. -/
inductive Value.Look
  | number (n : Int64)
  | cells (ns : List Int64)
  | function (site : Site)
  | builtin (name : String)
  | void

namespace Value

def look (h : Heap) : Value → Look
  | int n => .number n
  | bit b => .number (if b then 1 else 0)
  | array address => .cells (h.cells address).toList
  | function f => .function f.site
  | builtin name => .builtin name
  | void => .void

/-- Values are equal exactly when they look the same. -/
theorem equal_iff_look_eq (h : Heap) (v w : Value) :
    v.equal h w = true ↔ v.look h = w.look h := by
  cases v with
  | array a =>
    cases w with
    | array b =>
      have hcells : a = b → h.cells a = h.cells b := fun hab ↦ hab ▸ rfl
      simp [equal, kind, same, look, Array.toList_inj, or_iff_right_of_imp hcells]
    | _ => simp [equal, kind, toInt?, look]
  | bit b =>
    cases w with
    | bit c => cases b <;> cases c <;> simp [equal, kind, same, look]
    | _ => simp [equal, kind, toInt?, look]
  | _ => cases w <;> simp [equal, kind, same, toInt?, look]

theorem equal_equivalence (h : Heap) : Equivalence fun v w : Value ↦ v.equal h w = true := by
  constructor
  · intro v
    exact (equal_iff_look_eq h v v).mpr rfl
  · intro v w hvw
    exact (equal_iff_look_eq h w v).mpr ((equal_iff_look_eq h v w).mp hvw).symm
  · intro u v w huv hvw
    have hlook := ((equal_iff_look_eq h u v).mp huv).trans ((equal_iff_look_eq h v w).mp hvw)
    exact (equal_iff_look_eq h u w).mpr hlook

/-- Values of one kind that are the same are equal. -/
theorem equal_of_same {h : Heap} {v w : Value} (hvw : same h v w = true) :
    v.equal h w = true := by
  have hkind : v.kind = w.kind := by
    cases v <;> cases w <;> first | rfl | contradiction
  rw [equal, if_pos hkind]
  exact hvw

end Value

/-! ### Texts of numbers -/

theorem toList_repr_ofNat (k : Nat) : (Int.ofNat k).repr.toList = Nat.toDigits 10 k :=
  Nat.toList_repr

theorem toList_repr_negSucc (k : Nat) :
    (Int.negSucc k).repr.toList = '-' :: Nat.toDigits 10 (k + 1) := by
  show ("-" ++ (k + 1).repr).toList = _
  rw [String.toList_append, Nat.toList_repr]
  rfl

theorem isDigit_of_mem_toDigits_ten {n : Nat} {c : Char} (hc : c ∈ Nat.toDigits 10 n) :
    c.isDigit = true :=
  Nat.isDigit_of_mem_toDigits (by decide) (by decide) hc

/-- A number is written with digits, behind a sign if it is negative. -/
theorem mem_toList_repr {n : Int} {c : Char} (hc : c ∈ n.repr.toList) :
    c = '-' ∨ c.isDigit = true := by
  cases n with
  | ofNat k =>
    rw [toList_repr_ofNat] at hc
    exact .inr (isDigit_of_mem_toDigits_ten hc)
  | negSucc k =>
    rw [toList_repr_negSucc] at hc
    rcases List.mem_cons.mp hc with hsign | hdigit
    · exact .inl hsign
    · exact .inr (isDigit_of_mem_toDigits_ten hdigit)

theorem not_mem_toList_repr {c : Char} (hc : (c = '-' || c.isDigit) = false) (n : Int) :
    c ∉ n.repr.toList := by
  intro hmem
  rcases mem_toList_repr hmem with rfl | hdigit
  · contradiction
  · rw [hdigit, Bool.or_true] at hc
    contradiction

/-- The number that the digits spell is the one they were made of. -/
theorem toDigits_ten_injective : Function.Injective (Nat.toDigits 10) := by
  intro n k h
  have hvalue : ∀ m, Nat.ofDigitChars 10 (Nat.toDigits 10 m) 0 = m :=
    fun m ↦ Nat.ofDigitChars_toDigits (by decide) (by decide)
  rw [← hvalue n, h, hvalue]

/-- Different integers are written differently. -/
theorem toList_repr_injective : Function.Injective fun n : Int64 ↦ n.toInt.repr.toList := by
  intro n k h
  have hsign : ∀ i j : Nat, Nat.toDigits 10 i ≠ '-' :: Nat.toDigits 10 j := by
    intro i j heq
    have hdigit : '-'.isDigit = true := isDigit_of_mem_toDigits_ten (heq ▸ List.mem_cons_self)
    contradiction
  refine Int64.toInt_inj.mp ?_
  dsimp only at h
  generalize n.toInt = a, k.toInt = b at h
  cases a with
  | ofNat i =>
    cases b with
    | ofNat j =>
      rw [toList_repr_ofNat, toList_repr_ofNat] at h
      exact congrArg Int.ofNat (toDigits_ten_injective h)
    | negSucc j =>
      rw [toList_repr_ofNat, toList_repr_negSucc] at h
      exact absurd h (hsign _ _)
  | negSucc i =>
    cases b with
    | ofNat j =>
      rw [toList_repr_negSucc, toList_repr_ofNat] at h
      exact absurd h.symm (hsign _ _)
    | negSucc j =>
      rw [toList_repr_negSucc, toList_repr_negSucc] at h
      exact congrArg Int.negSucc (Nat.succ.inj (toDigits_ten_injective (List.cons.inj h).2))

theorem toList_repr_ne_nil (n : Int) : n.repr.toList ≠ [] := by
  cases n with
  | ofNat k =>
    rw [toList_repr_ofNat]
    exact Nat.toDigits_ne_nil
  | negSucc k =>
    rw [toList_repr_negSucc]
    exact List.cons_ne_nil _ _

/-! ### Texts with commas -/

/-- Texts without a comma end where the first comma is, or where the whole text ends. -/
theorem append_inj_of_not_mem_comma {first first' rest rest' : List Char} (hfirst : ',' ∉ first)
    (hfirst' : ',' ∉ first') (hrest : ∀ c ∈ rest.head?, c = ',')
    (hrest' : ∀ c ∈ rest'.head?, c = ',')
    (h : first ++ rest = first' ++ rest') : first = first' ∧ rest = rest' := by
  induction first generalizing first' with
  | nil =>
    cases first' with
    | nil => exact ⟨rfl, h⟩
    | cons c first' =>
      have hc : c = ',' := hrest c (by simp [show rest = _ from h])
      exact absurd (hc ▸ List.mem_cons_self) hfirst'
  | cons c first ih =>
    cases first' with
    | nil =>
      have hc : c = ',' := hrest' c (by simp [← show _ = rest' from h])
      exact absurd (hc ▸ List.mem_cons_self) hfirst
    | cons c' first' =>
      obtain ⟨rfl, htail⟩ := List.cons.inj h
      rw [List.mem_cons, not_or] at hfirst hfirst'
      obtain ⟨rfl, hrest⟩ := ih hfirst.2 hfirst'.2 htail
      exact ⟨rfl, hrest⟩

/-- Texts that are not empty and hold no comma are told apart with commas between them. -/
theorem eq_of_intercalate_eq {xs ys : List (List Char)} (hxs : ∀ x ∈ xs, x ≠ [] ∧ ',' ∉ x)
    (hys : ∀ y ∈ ys, y ≠ [] ∧ ',' ∉ y)
    (h : [',', ' '].intercalate xs = [',', ' '].intercalate ys) : xs = ys := by
  -- Behind the first text there is nothing, or a comma, a space and the other texts.
  have hsplit : ∀ (x : List Char) (rest : List (List Char)), [',', ' '].intercalate (x :: rest) =
      x ++ if rest = [] then [] else ',' :: ' ' :: [',', ' '].intercalate rest := by
    intro x rest
    cases rest <;> simp [List.intercalate_cons_cons]
  induction xs generalizing ys with
  | nil =>
    cases ys with
    | nil => rfl
    | cons y ys =>
      rw [hsplit] at h
      exact absurd (List.append_eq_nil_iff.mp h.symm).1 (hys y List.mem_cons_self).1
  | cons x xs ih =>
    cases ys with
    | nil =>
      rw [hsplit] at h
      exact absurd (List.append_eq_nil_iff.mp h).1 (hxs x List.mem_cons_self).1
    | cons y ys =>
      rw [List.forall_mem_cons] at hxs hys
      rw [hsplit, hsplit] at h
      obtain ⟨rfl, hrest⟩ := append_inj_of_not_mem_comma hxs.1.2 hys.1.2
        (by split_ifs <;> simp) (by split_ifs <;> simp) h
      congr 1
      split_ifs at hrest with hx hy
      · rw [hx, hy]
      · exact ih hxs.2 hys.2 (by simpa using hrest)

/-! ### Texts of values -/

namespace Value

namespace Look

/-- The text of what looks like this. A function's look does not show its name. -/
def text : Look → String
  | number n => toString n.toInt
  | cells ns => "[" ++ ", ".intercalate (ns.map fun n ↦ toString n.toInt) ++ "]"
  | function _ => ""
  | builtin name => "builtin:" ++ name
  | void => "void"

theorem toList_text_cells (ns : List Int64) : (cells ns).text.toList =
    '[' :: ([',', ' '].intercalate (ns.map fun n ↦ n.toInt.repr.toList) ++ [']']) := by
  simp only [text, String.toList_append, String.toList_intercalate, List.map_map]
  rfl

theorem toList_text_builtin (name : String) :
    (builtin name).text.toList = ['b', 'u', 'i', 'l', 't', 'i', 'n', ':'] ++ name.toList :=
  String.toList_append

/-- The kind of what looks like this, where a bit counts as a number. -/
def kind : Look → Kind
  | number _ => .int
  | cells _ => .array
  | function _ => .function
  | builtin _ => .builtin
  | void => .void

/-- The kind that the first character of a text shows. -/
def kindOfText : List Char → Kind
  | [] => .function
  | '[' :: _ => .array
  | 'b' :: _ => .builtin
  | 'v' :: _ => .void
  | _ => .int

theorem kindOfText_text (l : Look) : kindOfText l.text.toList = l.kind := by
  cases l with
  | number n =>
    have hother : ∀ c rest, (c = '-' || c.isDigit) = false → n.toInt.repr.toList ≠ c :: rest := by
      intro c rest hc h
      exact not_mem_toList_repr hc n.toInt (h ▸ List.mem_cons_self)
    show kindOfText n.toInt.repr.toList = .int
    unfold kindOfText
    split
    · exact absurd ‹_› (toList_repr_ne_nil n.toInt)
    · exact absurd ‹_› (hother _ _ rfl)
    · exact absurd ‹_› (hother _ _ rfl)
    · exact absurd ‹_› (hother _ _ rfl)
    · rfl
  | cells ns =>
    rw [toList_text_cells]
    rfl
  | function site => rfl
  | builtin name =>
    rw [toList_text_builtin]
    rfl
  | void => rfl

theorem cells_injective_text {ns ks : List Int64} (h : (cells ns).text = (cells ks).text) :
    ns = ks := by
  have hchars := congrArg String.toList h
  rw [toList_text_cells, toList_text_cells] at hchars
  obtain ⟨-, hbody⟩ := List.cons.inj hchars
  have hnumeral : ∀ ns : List Int64, ∀ x ∈ ns.map fun n ↦ n.toInt.repr.toList,
      x ≠ [] ∧ ',' ∉ x := by
    intro ns x hx
    obtain ⟨n, -, rfl⟩ := List.mem_map.mp hx
    exact ⟨toList_repr_ne_nil _, not_mem_toList_repr rfl _⟩
  have hnumbers := eq_of_intercalate_eq (hnumeral ns) (hnumeral ks)
    (List.append_cancel_right hbody)
  exact toList_repr_injective.list_map hnumbers

/-- Looks other than those of functions differ in their texts. -/
theorem eq_of_text_eq {l m : Look} (hl : l.kind ≠ .function) (h : l.text = m.text) : l = m := by
  have hkind : l.kind = m.kind := by rw [← kindOfText_text, ← kindOfText_text, h]
  have hchars : l.text.toList = m.text.toList := congrArg String.toList h
  cases l <;> cases m <;> try contradiction
  case number.number n k => exact congrArg number (toList_repr_injective hchars)
  case cells.cells ns ks => exact congrArg cells (cells_injective_text h)
  case builtin.builtin name other =>
    rw [toList_text_builtin, toList_text_builtin] at hchars
    exact congrArg builtin (String.toList_inj.mp (List.append_cancel_left hchars))
  case void.void => rfl

end Look

theorem text_eq (h : Heap) {v : Value} (hv : v.kind ≠ .function) : v.text h = (v.look h).text := by
  cases v with
  | bit b => cases b <;> rfl
  | function f => exact absurd rfl hv
  | _ => rfl

/-- Values other than functions are equal exactly when they have the same text. -/
theorem equal_iff_text_eq (h : Heap) {v w : Value} (hv : v.kind ≠ .function)
    (hw : w.kind ≠ .function) : v.equal h w = true ↔ v.text h = w.text h := by
  rw [equal_iff_look_eq, text_eq h hv, text_eq h hw]
  constructor
  · intro hlook
    rw [hlook]
  · refine Look.eq_of_text_eq ?_
    cases v with
    | function f => exact hv
    | _ => simp [look, Look.kind]

/-- Equal values print alike, given that functions with the same site are the same function. -/
theorem text_eq_of_equal {h : Heap} {v w : Value}
    (hfunctions : ∀ f g, v = function f → w = function g → f.site = g.site → f = g)
    (hequal : v.equal h w = true) : v.text h = w.text h := by
  have hlook := (equal_iff_look_eq h v w).mp hequal
  by_cases hkinds : v.kind = .function ∨ w.kind = .function
  · cases v <;> cases w <;> simp [kind, look] at hkinds hlook
    case function.function f g => rw [hfunctions f g rfl rfl hlook]
  · push Not at hkinds
    exact (equal_iff_text_eq h hkinds.1 hkinds.2).mp hequal

end Value

end ExprLang
