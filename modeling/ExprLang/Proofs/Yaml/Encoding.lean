import ExprLang.Proofs.Text.Utf8
import ExprLang.Yaml.Cursor

/-!
ASCII documents. Each of their characters is one byte, none of which spoils a block, so that the
blocks of the bytes hold the characters one after the other (`decode_encode`).
-/

set_option autoImplicit false

namespace ExprLang.Text.Utf8

theorem toList_loop (bytes : ByteArray) (i : Nat) (done : List UInt8) :
    ByteArray.toList.loop bytes i done = done.reverse ++ bytes.data.toList.drop i := by
  induction hleft : bytes.size - i generalizing i done with
  | zero =>
    have hend : ¬i < bytes.size := by omega
    have hsize : bytes.data.toList.length ≤ i := by
      show bytes.size ≤ i
      omega
    rw [ByteArray.toList.loop, if_neg hend, List.drop_of_length_le hsize, List.append_nil]
  | succ n ih =>
    have hi : i < bytes.size := by omega
    have hget : bytes.get! i = bytes.data.toList[i] := by
      show bytes.data[i]! = _
      rw [getElem!_pos bytes.data i hi]
      rfl
    rw [ByteArray.toList.loop, if_pos hi, ih (i + 1) _ (by omega), List.reverse_cons,
      List.append_assoc, hget]
    congr 1
    exact (List.drop_eq_getElem_cons (l := bytes.data.toList) hi).symm

/-- The bytes of a text are those of its characters. -/
theorem encode_ofList (cs : List Char) :
    encode (String.ofList cs) = cs.flatMap String.utf8EncodeChar := by
  show ByteArray.toList.loop (String.ofList cs).toByteArray 0 [] = _
  rw [toList_loop, String.toByteArray_ofList, List.utf8Encode, List.toList_data_toByteArray]
  rfl

end ExprLang.Text.Utf8

namespace ExprLang.Yaml

/-- What holds of all characters in a list is decided by a look at these, not at all there are. -/
instance (priority := high) decidableForallMem (holds : Char → Prop) [DecidablePred holds]
    (cs : List Char) : Decidable (∀ c ∈ cs, holds c) := List.decidableBAll holds cs

/-- A space, or a character of ASCII that can be seen. -/
def IsPrintable (c : Char) : Prop := 0x20 ≤ c.toNat ∧ c.toNat ≤ 0x7e

instance : DecidablePred IsPrintable := fun _ ↦ inferInstanceAs (Decidable (_ ∧ _))

/-- A line end, or a printable character. -/
def IsCommon (c : Char) : Prop := c = '\n' ∨ IsPrintable c

theorem IsCommon.isAllowed {c : Char} (hc : IsCommon c) : Yaml.isAllowed c = true := by
  rcases hc with rfl | ⟨hlow, hhigh⟩
  · rfl
  · simp [Yaml.isAllowed, hlow, hhigh]

theorem IsCommon.lt {c : Char} (hc : IsCommon c) : c.toNat < 0x80 := by
  rcases hc with rfl | ⟨-, hhigh⟩
  · decide
  · omega

theorem common_spaces (count : Nat) : ∀ c ∈ List.replicate count ' ', IsCommon c := by
  intro c hc
  rw [List.eq_of_mem_replicate hc]
  exact .inr (by decide)

namespace Encoding

/-- The byte of an ASCII character. -/
def byte (c : Char) : UInt8 := UInt8.ofNat c.toNat

theorem utf8EncodeChar_of_lt {c : Char} (hc : c.toNat < 0x80) :
    String.utf8EncodeChar c = [byte c] := by
  rcases Text.Utf8.encodeChar_cases c with ⟨-, h⟩ | h | h | h
  · exact h
  all_goals omega

theorem byte_lt {c : Char} (hc : c.toNat < 0x80) : byte c < 0x80 := by
  have hbyte : (byte c).toNat = c.toNat := UInt8.toNat_ofNat_of_lt' (Nat.lt_trans hc (by decide))
  rw [UInt8.lt_iff_toNat_lt, hbyte]
  exact hc

theorem front_byte {c : Char} (hc : c.toNat < 0x80) (rest : List UInt8) :
    utf8.front (byte c :: rest) = .char c 1 := by
  have hwidth : utf8Width? (byte c) = some 1 := by rw [utf8Width?, if_pos (byte_lt hc)]
  have hsequence : Text.Utf8.sequence? (byte c) rest = some (c, 0) :=
    Text.Utf8.sequence?_of_encodeChar (utf8EncodeChar_of_lt hc) rest
  simp [front, hwidth, hsequence]

theorem characters_bytes {cs : List Char} (hcs : ∀ c ∈ cs, IsCommon c) {fuel : Nat}
    (hfuel : cs.length ≤ fuel) : utf8.characters fuel (cs.map byte) = some (cs, []) := by
  induction cs generalizing fuel with
  | nil => cases fuel <;> rfl
  | cons c cs ih =>
    obtain ⟨hc, hcs⟩ := List.forall_mem_cons.mp hcs
    obtain ⟨fuel, rfl⟩ := Nat.exists_eq_add_of_le' (Nat.lt_of_lt_of_le (Nat.succ_pos _) hfuel)
    have hrest := ih hcs (Nat.le_of_succ_le_succ hfuel)
    simp [characters, front_byte hc.lt, hc.isAllowed, hrest]

theorem blocks_succ {e : Encoding} (fuel : Nat) {size : Nat} {bytes left : List UInt8}
    {cs : List Char} (hbytes : bytes ≠ [])
    (hfirst : e.characters size (bytes.take size) = some (cs, left)) :
    e.blocks (fuel + 1) size bytes = some cs ::
      if (bytes.drop size).isEmpty then if left.isEmpty then [] else [none]
      else e.blocks fuel blockSize (left ++ bytes.drop size) := by
  cases bytes with
  | nil => contradiction
  | cons b rest => simp only [blocks, hfirst]

/-- Blocks of common characters are well formed, and hold the characters one after the other. -/
theorem exists_blocks {cs : List Char} (hcs : ∀ c ∈ cs, IsCommon c) {fuel size : Nat}
    (hfuel : cs.length ≤ fuel) (hsize : 0 < size) :
    ∃ parts : List (List Char), utf8.blocks fuel size (cs.map byte) = parts.map some ∧
      parts.flatten = cs := by
  induction fuel generalizing cs size with
  | zero =>
    obtain rfl := List.length_eq_zero_iff.mp (Nat.le_zero.mp hfuel)
    exact ⟨[], rfl, rfl⟩
  | succ fuel ih =>
    by_cases hempty : cs = []
    · subst hempty
      exact ⟨[], rfl, rfl⟩
    · have hpositive : 0 < cs.length := List.length_pos_of_ne_nil hempty
      have hfirst : utf8.characters size ((cs.take size).map byte) = some (cs.take size, []) :=
        characters_bytes (fun c hc ↦ hcs c (List.mem_of_mem_take hc)) (List.length_take_le ..)
      have hshort : (cs.drop size).length ≤ fuel := by
        rw [List.length_drop]
        omega
      obtain ⟨parts, hparts, hflatten⟩ := ih (fun c hc ↦ hcs c (List.mem_of_mem_drop hc)) hshort
        (show 0 < blockSize by decide)
      refine ⟨cs.take size :: parts, ?_, ?_⟩
      · have hbytes : cs.map byte ≠ [] := by simpa using hempty
        rw [List.map_take] at hfirst
        rw [blocks_succ fuel hbytes hfirst, ← List.map_drop, List.nil_append, hparts]
        rw [List.map_cons]
        by_cases hdrop : cs.drop size = []
        · have hnone : parts.map some = [] := by
            rw [← hparts, hdrop]
            cases fuel <;> rfl
          rw [hdrop, hnone]
          rfl
        · rw [if_neg (by simpa using hdrop)]
      · rw [List.flatten_cons, hflatten, List.take_append_drop]

/-- The characters of an ASCII document come in blocks that are well formed. -/
theorem decode_encode {cs : List Char} (hcs : ∀ c ∈ cs, IsCommon c) :
    ∃ parts : List (List Char), decode (Text.Utf8.encode (String.ofList cs)) = parts.map some ∧
      parts.flatten = cs := by
  have hbytes : Text.Utf8.encode (String.ofList cs) = cs.map byte := by
    rw [Text.Utf8.encode_ofList]
    induction cs with
    | nil => rfl
    | cons c rest ih =>
      obtain ⟨hc, hrest⟩ := List.forall_mem_cons.mp hcs
      rw [List.flatMap_cons, ih hrest, utf8EncodeChar_of_lt hc.lt]
      rfl
  have hdetect : detect (cs.map byte) = (utf8, 0) := by
    cases cs with
    | nil => rfl
    | cons c rest =>
      have hlead := byte_lt (hcs c List.mem_cons_self).lt
      unfold detect
      split
      case h_4 => rfl
      all_goals
        rename_i heq
        obtain ⟨hmark, -⟩ := List.cons.inj heq
        rw [hmark] at hlead
        contradiction
  rw [hbytes, decode, hdetect]
  exact exists_blocks hcs (Nat.le_of_eq (List.length_map byte).symm) (by decide)

end Encoding

end ExprLang.Yaml
