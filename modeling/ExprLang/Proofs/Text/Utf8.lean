import ExprLang.Text.Utf8
import Mathlib.Data.List.Basic

/-!
Bytes as characters. What the characters of a row of bytes are is said by the way single characters
are written (`Reads`): a character takes the bytes that write it, and a byte that starts none of
them is one replacement character. Every row of bytes has exactly one reading, the one that is
decoded (`reads_iff_decode`). A row may be cut at its line ends (`toList_decode_append`).
-/

set_option autoImplicit false

namespace ExprLang.Text.Utf8

/-! ### How a character is written -/

/-- A number without its last `count` digits in base 64. -/
def leading : (count : Nat) → (value : Nat) → Nat
  | 0, value => value
  | count + 1, value => leading count value / 64

theorem leading_eq (value : Nat) : leading 1 value = value / 64 ∧
    leading 2 value = value / 64 / 64 ∧ leading 3 value = value / 64 / 64 / 64 := ⟨rfl, rfl, rfl⟩

/-- The last `count` digits of a number in base 64, each as a continuation byte. -/
def continued : (count : Nat) → (value : Nat) → List UInt8
  | 0, _ => []
  | count + 1, value => UInt8.ofNat (leading count value % 64 + 0x80) :: continued count value

theorem length_continued (count value : Nat) : (continued count value).length = count := by
  induction count with
  | zero => rfl
  | succ count ih => rw [continued, List.length_cons, ih]

theorem toNat_lt (c : Char) : c.toNat < 0x110000 := by
  rcases c.valid with h | ⟨-, h⟩
  · exact Nat.lt_trans h (by decide)
  · exact h

/-- A character is one byte, or a lead byte with one to three continuation bytes. -/
theorem encodeChar_cases (c : Char) :
    (c.toNat < 0x80 ∧ String.utf8EncodeChar c = [UInt8.ofNat c.toNat]) ∨
    (0x80 ≤ c.toNat ∧ c.toNat < 0x800 ∧ String.utf8EncodeChar c =
      UInt8.ofNat (leading 1 c.toNat + 0xc0) :: continued 1 c.toNat) ∨
    (0x800 ≤ c.toNat ∧ c.toNat < 0x10000 ∧ String.utf8EncodeChar c =
      UInt8.ofNat (leading 2 c.toNat + 0xe0) :: continued 2 c.toNat) ∨
    (0x10000 ≤ c.toNat ∧ c.toNat < 0x110000 ∧ String.utf8EncodeChar c =
      UInt8.ofNat (leading 3 c.toNat + 0xf0) :: continued 3 c.toNat) := by
  have hmax := toNat_lt c
  have hval : c.val.toNat = c.toNat := rfl
  unfold String.utf8EncodeChar
  simp only [hval, continued, leading, Nat.div_div_eq_div_mul, Nat.reduceMul]
  split_ifs with hone htwo hthree
  · exact .inl ⟨by omega, rfl⟩
  · have hlead : c.toNat / 64 % 32 = c.toNat / 64 := by omega
    exact .inr (.inl ⟨by omega, by omega, by rw [hlead]⟩)
  · have hlead : c.toNat / 4096 % 16 = c.toNat / 4096 := by omega
    exact .inr (.inr (.inl ⟨by omega, by omega, by rw [hlead]⟩))
  · have hlead : c.toNat / 262144 % 8 = c.toNat / 262144 := by omega
    exact .inr (.inr (.inr ⟨by omega, hmax, by rw [hlead]⟩))

theorem encodeChar_eq_cons (c : Char) : ∃ lead tail, String.utf8EncodeChar c = lead :: tail :=
  List.exists_cons_of_ne_nil String.utf8EncodeChar_ne_nil

theorem scalar?_eq_some_iff {least value : Nat} {c : Char} :
    scalar? least value = some c ↔ least ≤ value ∧ c.toNat = value := by
  unfold scalar?
  constructor
  · intro h
    split_ifs at h with hvalid
    simp only [Bool.and_eq_true, decide_eq_true_eq] at hvalid
    cases h
    refine ⟨hvalid.1, ?_⟩
    rw [Char.ofNat, dif_pos hvalid.2]
    rfl
  · rintro ⟨hleast, rfl⟩
    have hvalid : c.toNat.isValidChar := c.valid
    rw [if_pos (by simp [hleast, hvalid]), Char.ofNat_toNat]

/-- Continuation bytes are collected into the number whose digits they are. -/
theorem collect?_eq_some_iff {payload count value : Nat} {bytes : List UInt8} :
    collect? payload count bytes = some value ↔
      leading count value = payload ∧ ∃ more, bytes = continued count value ++ more := by
  induction count generalizing payload bytes with
  | zero => simp [collect?, leading, continued, eq_comm]
  | succ count ih =>
    rw [leading, continued]
    generalize leading count value = digits at *
    cases bytes with
    | nil => simp [collect?]
    | cons b rest =>
      have hbyte := b.toNat_lt
      rw [collect?, continuation?]
      by_cases hb : 0x80 ≤ b.toNat ∧ b.toNat < 0xc0
      · rw [if_pos (by simpa using hb)]
        simp only [ih, List.cons_append, List.cons.injEq]
        constructor
        · rintro ⟨hdigits, more, hrest⟩
          have hself : digits % 64 + 0x80 = b.toNat := by omega
          exact ⟨by omega, more, by rw [hself, UInt8.ofNat_toNat], hrest⟩
        · rintro ⟨hpayload, more, hself, hrest⟩
          have hdigit : b.toNat = digits % 64 + 0x80 := by
            rw [hself, UInt8.toNat_ofNat_of_lt' (by simp only [UInt8.size]; omega)]
          exact ⟨by omega, more, hrest⟩
      · rw [if_neg (by simpa using hb)]
        simp only [List.cons_append, List.cons.injEq]
        refine iff_of_false nofun ?_
        rintro ⟨-, -, hself, -⟩
        refine hb ?_
        rw [hself, UInt8.toNat_ofNat_of_lt' (by simp only [UInt8.size]; omega)]
        omega

/-- The characters that are written with `count` continuation bytes, behind a lead byte that counts
from `offset` on. -/
theorem collected_eq_some_iff {lead offset count least n : Nat} {rest : List UInt8} {c : Char} :
    ((collect? (lead - offset) count rest).bind (scalar? least)).map (·, count) = some (c, n) ↔
      count = n ∧ least ≤ c.toNat ∧ leading count c.toNat = lead - offset ∧
        ∃ more, rest = continued count c.toNat ++ more := by
  simp only [Option.map_eq_some_iff, Option.bind_eq_some_iff, scalar?_eq_some_iff,
    collect?_eq_some_iff, Prod.mk.injEq]
  constructor
  · rintro ⟨_, ⟨_, ⟨hlead, hrest⟩, hleast, rfl⟩, rfl, rfl⟩
    exact ⟨rfl, hleast, hlead, hrest⟩
  · rintro ⟨rfl, hleast, hlead, hrest⟩
    exact ⟨c, ⟨_, ⟨hlead, hrest⟩, hleast, rfl⟩, rfl, rfl⟩

/-- What is read as a character is the bytes that write it. -/
theorem exists_of_sequence? {lead : UInt8} {rest : List UInt8} {c : Char} {count : Nat}
    (h : sequence? lead rest = some (c, count)) :
    ∃ tail more, rest = tail ++ more ∧ tail.length = count ∧
      String.utf8EncodeChar c = lead :: tail := by
  have hbound := lead.toNat_lt
  have hlead : ∀ {n : Nat}, n = lead.toNat → UInt8.ofNat n = lead := by
    rintro _ rfl
    exact UInt8.ofNat_toNat
  have hlong : ∀ {offset k : Nat}, String.utf8EncodeChar c =
      UInt8.ofNat (leading k c.toNat + offset) :: continued k c.toNat →
      leading k c.toNat + offset = lead.toNat → k = count →
      (∃ more, rest = continued k c.toNat ++ more) →
      ∃ tail more, rest = tail ++ more ∧ tail.length = count ∧
        String.utf8EncodeChar c = lead :: tail := by
    rintro offset k hencode hn rfl ⟨more, hrest⟩
    exact ⟨_, more, hrest, length_continued _ _, by rw [hencode, hlead hn]⟩
  simp only [sequence?, Bool.and_eq_true, decide_eq_true_eq] at h
  split_ifs at h with hone htwo hthree hfour
  · obtain ⟨rfl, rfl⟩ := Prod.mk.inj (Option.some.inj h)
    have hc : (Char.ofNat lead.toNat).toNat = lead.toNat := by
      rw [Char.ofNat, dif_pos (.inl (by omega))]
      rfl
    rcases encodeChar_cases (Char.ofNat lead.toNat) with h | h | h | h
    · exact ⟨[], rest, rfl, rfl, by rw [h.2, hlead hc]⟩
    all_goals omega
  -- The lead byte and the least number for its length leave one way of writing the character.
  all_goals
    obtain ⟨hcount, hleast, hvalue, hrest⟩ := collected_eq_some_iff.mp h
    have hleading := leading_eq c.toNat
    rcases encodeChar_cases c with h | h | h | h <;> first
    | exact hlong h.2.2 (by omega) hcount hrest
    | omega

/-- The bytes that write a character are read as that character, whatever follows. -/
theorem sequence?_of_encodeChar {lead : UInt8} {tail : List UInt8} {c : Char}
    (h : String.utf8EncodeChar c = lead :: tail) (more : List UInt8) :
    sequence? lead (tail ++ more) = some (c, tail.length) := by
  simp only [sequence?, Bool.and_eq_true, decide_eq_true_eq]
  have hleading := leading_eq c.toNat
  rcases encodeChar_cases c with hc | hc | hc | hc
  · obtain ⟨rfl, rfl⟩ := List.cons.inj (h.symm.trans hc.2)
    rw [UInt8.toNat_ofNat_of_lt' (Nat.lt_trans hc.1 (by decide)), if_pos hc.1, Char.ofNat_toNat,
      List.length_nil]
  all_goals
    obtain ⟨rfl, rfl⟩ := List.cons.inj (h.symm.trans hc.2.2)
    rw [UInt8.toNat_ofNat_of_lt' (by simp only [UInt8.size]; omega)]
    split_ifs <;> first
    | exact collected_eq_some_iff.mpr ⟨(length_continued _ _).symm, hc.1, by omega, more, rfl⟩
    | omega

/-! ### Readings -/

/-- The characters of a row of bytes. -/
inductive Reads : List UInt8 → List Char → Prop
  | nil : Reads [] []
  | character (c : Char) {rest : List UInt8} {chars : List Char} (h : Reads rest chars) :
      Reads (String.utf8EncodeChar c ++ rest) (c :: chars)
  /-- No character is written by bytes from here on. -/
  | invalid {b : UInt8} {rest : List UInt8} {chars : List Char}
      (hb : ∀ c, ¬String.utf8EncodeChar c <+: b :: rest) (h : Reads rest chars) :
      Reads (b :: rest) (Char.ofNat 0xfffd :: chars)

theorem decodeOnto_done (later done : List Char) (bytes : List UInt8) :
    decodeOnto (later ++ done) bytes = decodeOnto later bytes ++ done := by
  fun_induction decodeOnto later bytes with
  | case1 later => rw [decodeOnto]
  | case2 later b rest c count h ih =>
    rw [decodeOnto, h]
    exact ih
  | case3 later b rest h ih =>
    rw [decodeOnto, h]
    exact ih

@[simp] theorem toList_decode_nil : (decode []).toList = [] := by
  rw [decode, decodeOnto, String.toList_ofList, List.reverse_nil]

theorem toList_decode_of_some {b : UInt8} {rest : List UInt8} {c : Char} {count : Nat}
    (h : sequence? b rest = some (c, count)) :
    (decode (b :: rest)).toList = c :: (decode (rest.drop count)).toList := by
  simp only [decode, String.toList_ofList, decodeOnto, h]
  rw [← List.nil_append [c], decodeOnto_done]
  exact List.reverse_concat ..

theorem toList_decode_of_none {b : UInt8} {rest : List UInt8} (h : sequence? b rest = none) :
    (decode (b :: rest)).toList = replacement :: (decode rest).toList := by
  simp only [decode, String.toList_ofList, decodeOnto, h]
  rw [← List.nil_append [replacement], decodeOnto_done]
  exact List.reverse_concat ..

theorem reads_decode (bytes : List UInt8) : Reads bytes (decode bytes).toList := by
  have hreads : ∀ done : List Char, Reads bytes (decode bytes).toList := by
    intro done
    induction done, bytes using decodeOnto.induct with
    | case1 done =>
      rw [toList_decode_nil]
      exact .nil
    | case2 done b rest c count h ih =>
      obtain ⟨tail, more, rfl, rfl, hencode⟩ := exists_of_sequence? h
      rw [toList_decode_of_some h, List.drop_left, ← List.cons_append, ← hencode]
      rw [List.drop_left] at ih
      exact .character c ih
    | case3 done b rest h ih =>
      rw [toList_decode_of_none h]
      refine .invalid ?_ ih
      rintro c ⟨more, hmore⟩
      obtain ⟨lead, tail, hencode⟩ := encodeChar_eq_cons c
      rw [hencode, List.cons_append] at hmore
      obtain ⟨rfl, rfl⟩ := List.cons.inj hmore
      rw [sequence?_of_encodeChar hencode] at h
      contradiction
  exact hreads []

/-- Every row of bytes is read in one way, and so it is decoded. -/
theorem reads_iff_decode {bytes : List UInt8} {chars : List Char} :
    Reads bytes chars ↔ (decode bytes).toList = chars := by
  constructor
  · intro h
    induction h with
    | nil => exact toList_decode_nil
    | character c _ ih =>
      obtain ⟨lead, tail, hencode⟩ := encodeChar_eq_cons c
      rw [hencode, List.cons_append, toList_decode_of_some (sequence?_of_encodeChar hencode _),
        List.drop_left, ih]
    | @invalid b rest chars hb _ ih =>
      cases hsequence : sequence? b rest with
      | none => rw [toList_decode_of_none hsequence, ih, replacement]
      | some found =>
        obtain ⟨tail, more, rfl, -, hencode⟩ := exists_of_sequence? hsequence
        exact absurd ⟨more, by rw [hencode, List.cons_append]⟩ (hb found.1)
  · rintro rfl
    exact reads_decode bytes

/-! ### Line ends -/

/-- A line end is no part of a longer character. -/
theorem collect?_append (payload count : Nat) (bytes more : List UInt8) :
    collect? payload count (bytes ++ 10 :: more) = collect? payload count bytes := by
  induction count generalizing payload bytes with
  | zero => rfl
  | succ count ih =>
    cases bytes with
    | nil => rfl
    | cons b rest =>
      simp only [List.cons_append, collect?]
      split
      · exact ih ..
      · rfl

theorem sequence?_append (lead : UInt8) (bytes more : List UInt8) :
    sequence? lead (bytes ++ 10 :: more) = sequence? lead bytes := by
  simp only [sequence?, collect?_append]

theorem le_length_of_sequence? {lead : UInt8} {bytes : List UInt8} {c : Char} {count : Nat}
    (h : sequence? lead bytes = some (c, count)) : count ≤ bytes.length := by
  obtain ⟨tail, more, rfl, rfl, -⟩ := exists_of_sequence? h
  rw [List.length_append]
  exact Nat.le_add_right ..

theorem decodeOnto_append (done : List Char) (bytes more : List UInt8) :
    decodeOnto done (bytes ++ 10 :: more) = decodeOnto ('\n' :: decodeOnto done bytes) more := by
  fun_induction decodeOnto done bytes with
  | case1 done =>
    rw [List.nil_append, decodeOnto]
    rfl
  | case2 done b rest c count h ih =>
    rw [List.cons_append, decodeOnto, sequence?_append, h]
    simp only [List.drop_append_of_le_length (le_length_of_sequence? h)]
    exact ih
  | case3 done b rest h ih =>
    rw [List.cons_append, decodeOnto, sequence?_append, h]
    exact ih

/-- The text of two parts with a line end between them. -/
theorem toList_decode_append (bytes more : List UInt8) :
    (decode (bytes ++ 10 :: more)).toList =
      (decode bytes).toList ++ '\n' :: (decode more).toList := by
  rw [decode, decodeOnto_append, ← List.nil_append ('\n' :: _), decodeOnto_done]
  simp [decode]

end ExprLang.Text.Utf8
