import ExprLang.Proofs.Yaml.Encoding

/-!
The order of texts is the order of their bytes (`encode_lt_encode_iff`). Of two characters, the
smaller is written by bytes that first differ from those of the greater, and are smaller, within
both (`differs_encodeChar`), so that what follows the characters has no part in the order.
-/

set_option autoImplicit false

namespace ExprLang.Text.Utf8

/-- The rows have a first place of difference, and there the byte of the first row is smaller. -/
def Differs (xs ys : List UInt8) : Prop :=
  ∃ common x y xs' ys', xs = common ++ x :: xs' ∧ ys = common ++ y :: ys' ∧ x < y

namespace Differs

theorem head {x y : UInt8} (h : x.toNat < y.toNat) (xs ys : List UInt8) :
    Differs (x :: xs) (y :: ys) :=
  ⟨[], x, y, xs, ys, rfl, rfl, UInt8.lt_iff_toNat_lt.mpr h⟩

theorem cons (b : UInt8) {xs ys : List UInt8} (h : Differs xs ys) :
    Differs (b :: xs) (b :: ys) := by
  obtain ⟨common, x, y, xs', ys', rfl, rfl, hless⟩ := h
  exact ⟨b :: common, x, y, xs', ys', rfl, rfl, hless⟩

/-- Whatever is behind the rows, their order is settled. -/
theorem append_lt {xs ys : List UInt8} (h : Differs xs ys) (after after' : List UInt8) :
    xs ++ after < ys ++ after' := by
  obtain ⟨common, x, y, xs', ys', rfl, rfl, hless⟩ := h
  rw [List.append_assoc, List.append_assoc]
  exact List.append_left_lt (List.cons_lt_cons_iff.mpr (.inl hless))

end Differs

/-- Of two numbers, the smaller has smaller leading digits, or else the same and then continuation
bytes that come first. -/
theorem differs_continued {v w : Nat} (h : v < w) (count : Nat) :
    leading count v < leading count w ∨
      leading count v = leading count w ∧ Differs (continued count v) (continued count w) := by
  induction count with
  | zero => exact .inl h
  | succ count ih =>
    simp only [leading, continued]
    rcases ih with hless | ⟨hsame, hdiffers⟩
    · by_cases hlead : leading count v / 64 < leading count w / 64
      · exact .inl hlead
      · -- The numbers agree up to their last digit, which is the next byte.
        refine .inr ⟨by omega, .head ?_ _ _⟩
        rw [UInt8.toNat_ofNat', UInt8.toNat_ofNat']
        omega
    · rw [hsame]
      exact .inr ⟨rfl, hdiffers.cons _⟩

theorem differs_long {v w count offset : Nat} (h : v < w)
    (hbyte : leading count w + offset < 0x100) :
    Differs (UInt8.ofNat (leading count v + offset) :: continued count v)
      (UInt8.ofNat (leading count w + offset) :: continued count w) := by
  rcases differs_continued h count with hless | ⟨hsame, hdiffers⟩
  · refine .head ?_ _ _
    rw [UInt8.toNat_ofNat', UInt8.toNat_ofNat']
    omega
  · rw [hsame]
    exact hdiffers.cons _

/-- The longer a character is written, the greater is its lead byte. -/
theorem encodeChar_lead (c : Char) : ∃ count offset, String.utf8EncodeChar c =
      UInt8.ofNat (leading count c.toNat + offset) :: continued count c.toNat ∧
    (count = 0 ∧ offset = 0 ∧ leading count c.toNat < 0x80 ∧ c.toNat < 0x80 ∨
      count = 1 ∧ offset = 0xc0 ∧ leading count c.toNat < 0x20 ∧ 0x80 ≤ c.toNat ∧
        c.toNat < 0x800 ∨
      count = 2 ∧ offset = 0xe0 ∧ leading count c.toNat < 0x10 ∧ 0x800 ≤ c.toNat ∧
        c.toNat < 0x10000 ∨
      count = 3 ∧ offset = 0xf0 ∧ leading count c.toNat < 8 ∧ 0x10000 ≤ c.toNat) := by
  have hleading := leading_eq c.toNat
  rcases encodeChar_cases c with ⟨hless, hc⟩ | ⟨_, hless, hc⟩ | ⟨_, hless, hc⟩ | ⟨_, hless, hc⟩
  · exact ⟨0, 0, hc, .inl ⟨rfl, rfl, hless, hless⟩⟩
  · exact ⟨1, 0xc0, hc, by omega⟩
  · exact ⟨2, 0xe0, hc, by omega⟩
  · exact ⟨3, 0xf0, hc, by omega⟩

theorem differs_encodeChar {c d : Char} (h : c < d) :
    Differs (String.utf8EncodeChar c) (String.utf8EncodeChar d) := by
  have hless : c.toNat < d.toNat := h
  obtain ⟨count, offset, hc, hcount⟩ := encodeChar_lead c
  obtain ⟨count', offset', hd, hcount'⟩ := encodeChar_lead d
  rw [hc, hd]
  by_cases hsame : count' = count
  · have hoffset : offset' = offset := by omega
    subst hsame hoffset
    exact differs_long hless (by omega)
  · refine .head ?_ _ _
    rw [UInt8.toNat_ofNat', UInt8.toNat_ofNat']
    omega

theorem flatMap_lt_flatMap {cs ds : List Char} (h : cs < ds) :
    cs.flatMap String.utf8EncodeChar < ds.flatMap String.utf8EncodeChar := by
  induction cs generalizing ds with
  | nil =>
    cases ds with
    | nil => exact absurd h (List.not_lt_nil _)
    | cons d ds =>
      obtain ⟨lead, tail, hencode⟩ := encodeChar_eq_cons d
      rw [List.flatMap_nil, List.flatMap_cons, hencode, List.cons_append]
      exact List.nil_lt_cons _ _
  | cons c cs ih =>
    cases ds with
    | nil => exact absurd h (List.not_lt_nil _)
    | cons d ds =>
      rw [List.flatMap_cons, List.flatMap_cons]
      rcases List.cons_lt_cons_iff.mp h with hless | ⟨rfl, htail⟩
      · exact (differs_encodeChar hless).append_lt _ _
      · exact List.append_left_lt (ih htail)

theorem encode_lt_encode {s t : String} (h : s < t) : encode s < encode t := by
  rw [← String.ofList_toList (s := s), ← String.ofList_toList (s := t), encode_ofList,
    encode_ofList]
  exact flatMap_lt_flatMap h

/-- Texts are in the order of their bytes. -/
theorem encode_lt_encode_iff {s t : String} : encode s < encode t ↔ s < t := by
  refine ⟨fun h ↦ ?_, encode_lt_encode⟩
  by_contra hnot
  have hle : ¬s > t := fun hgreater ↦ List.lt_asymm h (encode_lt_encode hgreater)
  cases String.le_antisymm hle hnot
  exact List.lt_irrefl _ h

end ExprLang.Text.Utf8
