import ExprLang.Proofs.Yaml.Encoding

/-!
Cursors in ASCII documents. `Cursor.At` says what is left of the text, where the cursor stands, and
how much has been asked for already, whatever blocks the characters come in; each move of a cursor
has one lemma about it.
-/

set_option autoImplicit false

namespace ExprLang.Yaml

/-! ### Places -/

/-- Where a character stands. -/
structure Place where
  index : Nat
  line : Nat
  column : Nat

namespace Place

/-- Further along the same line. -/
def along (p : Place) (count : Nat) : Place := ⟨p.index + count, p.line, p.column + count⟩

/-- At the start of the next line. -/
def below (p : Place) : Place := ⟨p.index + 1, p.line + 1, 0⟩

theorem along_along (p : Place) (first second : Nat) :
    (p.along first).along second = p.along (first + second) := by
  simp [along, Nat.add_assoc]

end Place

theorem endMark_not_mem {text : List Char} (h : ∀ c ∈ text, IsCommon c) : endMark ∉ text := by
  intro hmem
  rcases h _ hmem with hend | ⟨hlow, -⟩
  · contradiction
  · contradiction

namespace Cursor

/-- The cursor stands at `place`, where `text` is all that is left. At least `count` characters of
it have been asked for. -/
structure At (c : Cursor) (count : Nat) (place : Place) (text : List Char) : Prop where
  common : ∀ ch ∈ text, IsCommon ch
  fits : text.length ≤ c.size
  mark : c.sawMark = false
  place : place = ⟨c.index, c.line, c.column⟩
  ahead : ∃ (parts : List (List Char)) (ends : Nat), c.blocks = parts.map some ∧
    c.ahead ++ parts.flatten = text ++ List.replicate ends endMark ∧
    (count ≤ c.ahead.length ∨ parts = [])

variable {c : Cursor} {count : Nat} {p : Place} {text : List Char}

/-- A text of common characters is ahead from its start. -/
theorem at_ofBytes {text : List Char} (htext : ∀ ch ∈ text, IsCommon ch) :
    Cursor.At (.ofBytes (Text.Utf8.encode (String.ofList text))) 0 ⟨0, 1, 0⟩ text := by
  obtain ⟨parts, hparts, hflatten⟩ := Encoding.decode_encode htext
  refine ⟨htext, ?_, rfl, rfl, parts, 0, hparts, ?_, .inl (Nat.zero_le _)⟩
  · rw [Cursor.ofBytes, hparts, ← hflatten, List.flatMap_map]
    exact Nat.le_of_eq (congrArg List.length List.flatMap_id.symm)
  · rw [hflatten]
    exact (List.append_nil _).symm

theorem At.column (h : c.At count p text) : c.column = p.column := by rw [h.place]

theorem At.line (h : c.At count p text) : c.line = p.line := by rw [h.place]

theorem At.index (h : c.At count p text) : c.index = p.index := by rw [h.place]

theorem At.mono {fewer : Nat} (h : c.At count p text) (hfewer : fewer ≤ count) :
    c.At fewer p text := by
  obtain ⟨hcommon, hfits, hmark, hplace, parts, ends, hblocks, hahead, hcount⟩ := h
  refine ⟨hcommon, hfits, hmark, hplace, parts, ends, hblocks, hahead, ?_⟩
  exact hcount.imp_left (Nat.le_trans hfewer)

theorem hasLength_iff {α : Type} (count : Nat) (l : List α) :
    hasLength count l = true ↔ count ≤ l.length := by
  induction count generalizing l with
  | zero => simp [hasLength]
  | succ count ih => cases l <;> simp [hasLength, ih]

/-- Filling moves characters from the blocks, and adds an end mark at most. -/
theorem exists_fill (count : Nat) (ahead : List Char) (parts : List (List Char)) :
    ∃ ahead' parts' ends, fill count ahead (parts.map some) = some (ahead', parts'.map some) ∧
      ahead' ++ parts'.flatten = ahead ++ parts.flatten ++ List.replicate ends endMark ∧
      (count ≤ ahead'.length ∨ parts' = []) := by
  induction parts generalizing ahead with
  | nil =>
    by_cases hlength : hasLength count ahead = true
    · exact ⟨ahead, [], 0, by simp [fill, hlength], by simp, .inr rfl⟩
    · exact ⟨ahead ++ [endMark], [], 1, by simp [fill, hlength], by simp, .inr rfl⟩
  | cons part rest ih =>
    by_cases hlength : hasLength count ahead = true
    · refine ⟨ahead, part :: rest, 0, by simp [fill, hlength], by simp, ?_⟩
      exact .inl ((hasLength_iff count ahead).mp hlength)
    · obtain ⟨ahead', parts', ends, hfill, hsame, hcount⟩ := ih (ahead ++ part)
      exact ⟨ahead', parts', ends, by simpa [fill, hlength] using hfill, by simpa using hsame,
        hcount⟩

/-- Characters that are asked for are found, however they come in blocks. -/
theorem exists_need (h : c.At count p text) (wanted : Nat) :
    ∃ c', c.need wanted = some c' ∧ c'.At wanted p text := by
  by_cases hlength : hasLength wanted c.ahead = true
  · obtain ⟨hcommon, hfits, hmark, hplace, parts, ends, hblocks, hahead, -⟩ := h
    refine ⟨c, if_pos hlength, hcommon, hfits, hmark, hplace, parts, ends, hblocks, hahead, ?_⟩
    exact .inl ((hasLength_iff wanted c.ahead).mp hlength)
  · obtain ⟨hcommon, hfits, hmark, hplace, parts, ends, hblocks, hahead, -⟩ := h
    obtain ⟨ahead', parts', more, hfill, hsame, hcount⟩ := exists_fill wanted c.ahead parts
    rw [hahead, List.append_assoc, List.replicate_append_replicate] at hsame
    have hhead : ahead'.head? ≠ some byteOrderMark := by
      intro hhead
      have hmem : byteOrderMark ∈ text ++ List.replicate (ends + more) endMark := by
        rw [← hsame]
        exact List.mem_append_left _ (List.mem_of_head? hhead)
      rcases List.mem_append.mp hmem with htext | hend
      · rcases hcommon _ htext with hbreak | ⟨-, hhigh⟩ <;> contradiction
      · have := List.eq_of_mem_replicate hend
        contradiction
    refine ⟨{ c with ahead := ahead', blocks := parts'.map some, sawMark := false }, ?_, hcommon,
      hfits, rfl, hplace, parts', ends + more, rfl, hsame, hcount⟩
    simp [need, hlength, hblocks, hfill, hhead]

/-- A character that has been asked for is that of the text, or an end mark. -/
theorem char_eq (h : c.At count p text) {offset : Nat} (hoffset : offset < count) :
    c.char offset = text.getD offset endMark := by
  obtain ⟨-, -, -, -, parts, ends, -, hahead, hcount⟩ := h
  have hchar : c.ahead.getD offset endMark = (c.ahead ++ parts.flatten).getD offset endMark := by
    rcases hcount with hcount | rfl
    · have hlt : offset < c.ahead.length := by omega
      simp [List.getElem?_append_left hlt]
    · simp
  rw [char, hchar, hahead]
  by_cases hlt : offset < text.length
  · simp [List.getElem?_append_left hlt]
  · have hbehind : text.length ≤ offset := Nat.le_of_not_lt hlt
    rw [List.getD_eq_getElem?_getD, List.getD_eq_getElem?_getD, List.getElem?_append_right hbehind,
      List.getElem?_eq_none hbehind, List.getElem?_replicate]
    split <;> rfl

theorem char_zero {first : Char} (h : c.At (count + 1) p (first :: text)) : c.char 0 = first :=
  char_eq h (Nat.succ_pos count)

/-- The character at the cursor is the first one ahead. -/
theorem exists_ahead {first : Char} (h : c.At (count + 1) p (first :: text)) :
    ∃ more, c.ahead = first :: more := by
  obtain ⟨-, -, -, -, parts, ends, -, hahead, hcount⟩ := h
  cases hfront : c.ahead with
  | nil =>
    rw [hfront] at hahead hcount
    rcases hcount with hcount | rfl
    · contradiction
    · contradiction
  | cons a more =>
    rw [hfront] at hahead
    obtain ⟨rfl, -⟩ := List.cons.inj hahead
    exact ⟨more, rfl⟩

/-- Where the cursor goes when it passes its first character. -/
theorem At.tail {first : Char} {c' : Cursor} {place' : Place}
    (h : c.At (count + 1) p (first :: text)) (hsize : c'.size = c.size)
    (hmark : c'.sawMark = c.sawMark) (hblocks : c'.blocks = c.blocks)
    (hahead : c'.ahead = c.ahead.tail) (hplace : place' = ⟨c'.index, c'.line, c'.column⟩) :
    c'.At count place' text := by
  obtain ⟨more, hfront⟩ := exists_ahead h
  obtain ⟨hcommon, hfits, hsaw, -, parts, ends, hparts, htext, hcount⟩ := h
  rw [hfront] at htext hcount
  refine ⟨fun ch hch ↦ hcommon ch (List.mem_cons_of_mem _ hch), ?_, hmark.trans hsaw, hplace, parts,
    ends, hblocks.trans hparts, ?_, ?_⟩
  · rw [hsize]
    exact Nat.le_of_succ_le hfits
  · rw [hahead, hfront]
    exact (List.cons.inj htext).2
  · rw [hahead, hfront]
    exact hcount.imp_left Nat.le_of_succ_le_succ

theorem At.step {first : Char} (h : c.At (count + 1) p (first :: text)) :
    c.step.At count (p.along 1) text :=
  h.tail rfl rfl rfl rfl (by rw [h.place]; rfl)

end Cursor

namespace Scan

variable {α β : Type} {c : Cursor} {count : Nat} {p : Place} {text : List Char}

/-- From the cursor, the scan reads `a`, and then it stands at `p` before `text`, of which `count`
characters have been asked for. -/
def Reads (s : Scan α) (c : Cursor) (a : α) (count : Nat) (p : Place) (text : List Char) : Prop :=
  ∃ c', s c = some (a, c') ∧ c'.At count p text

theorem reads_pure (h : c.At count p text) (a : α) : Reads (pure a) c a count p text :=
  ⟨c, rfl, h⟩

theorem Reads.mono {s : Scan α} {a : α} {fewer : Nat} (h : Reads s c a count p text)
    (hfewer : fewer ≤ count) : Reads s c a fewer p text := by
  obtain ⟨c', hs, hc'⟩ := h
  exact ⟨c', hs, hc'.mono hfewer⟩

section Bind

variable {next : α → Scan β} {b : β} {m : Nat} {q : Place} {u : List Char}

theorem Reads.bind {s : Scan α} {a : α} (h : Reads s c a count p text)
    (hnext : ∀ c', c'.At count p text → Reads (next a) c' b m q u) :
    Reads (s >>= next) c b m q u := by
  obtain ⟨c', hs, hc'⟩ := h
  obtain ⟨c'', hb, hc''⟩ := hnext c' hc'
  refine ⟨c'', ?_, hc''⟩
  show (s c).bind (fun r ↦ next r.1 r.2) = _
  rw [hs]
  exact hb

end Bind

section Moves

variable {b : β} {m : Nat} {q : Place} {u : List Char}

/-- Looking at a character that has been asked for. -/
theorem reads_char {offset : Nat} {next : Char → Scan β} (h : c.At count p text)
    (hoffset : offset < count) (hnext : Reads (next (text.getD offset endMark)) c b m q u) :
    Reads (char offset >>= next) c b m q u := by
  rw [← Cursor.char_eq h hoffset] at hnext
  exact hnext

/-- Looking at the character at the cursor. -/
theorem reads_first {first : Char} {next : Char → Scan β} (h : c.At (count + 1) p (first :: text))
    (hnext : Reads (next first) c b m q u) : Reads (char 0 >>= next) c b m q u :=
  reads_char h (Nat.succ_pos count) hnext

theorem reads_get {next : Cursor → Scan β} (hnext : Reads (next c) c b m q u) :
    Reads (get >>= next) c b m q u :=
  hnext

theorem reads_need (h : c.At count p text) (wanted : Nat) :
    Reads (need wanted) c () wanted p text := by
  obtain ⟨c', hneed, hc'⟩ := Cursor.exists_need h wanted
  exact ⟨c', by rw [need, hneed]; rfl, hc'⟩

theorem reads_step {first : Char} (h : c.At (count + 1) p (first :: text)) :
    Reads step c () count (p.along 1) text :=
  ⟨c.step, rfl, h.step⟩

theorem reads_steps (taken : List Char) (h : c.At (count + taken.length) p (taken ++ text)) :
    Reads (steps taken.length) c () count (p.along taken.length) text := by
  induction taken generalizing c p with
  | nil => exact reads_pure h ()
  | cons first taken ih =>
    refine (reads_step h).bind fun c hc ↦ ?_
    have hrest := ih hc
    rw [Place.along_along, Nat.add_comm 1] at hrest
    exact hrest

theorem reads_take {first : Char} (h : c.At (count + 1) p (first :: text)) :
    Reads take c first count (p.along 1) text := by
  refine reads_first h ?_
  exact (reads_step h).bind fun c' hc' ↦ reads_pure hc' _

/-- A loop has fuel for more rounds than there are characters left. -/
theorem reads_bounded {loop : Nat → Scan β} (h : c.At count p text)
    (hloop : ∀ fuel, text.length < fuel → Reads (loop fuel) c b m q u) :
    Reads (bounded loop) c b m q u :=
  hloop (c.size + 2) (Nat.lt_of_le_of_lt h.fits (by omega))

/-- Passing a line end. -/
theorem reads_passBreak (h : c.At count p ('\n' :: text)) :
    Reads passBreak c ['\n'] 1 p.below text := by
  refine (reads_need h 2).bind fun c hc ↦ ?_
  obtain ⟨more, hmore⟩ := Cursor.exists_ahead hc
  refine ⟨c.newLine 1, ?_, hc.tail rfl rfl rfl ?_ (by rw [hc.place]; rfl)⟩
  · have hbreak : c.passBreak = (['\n'], c.newLine 1) := by
      rw [Cursor.passBreak, hmore]
      rfl
    show some c.passBreak = _
    rw [hbreak]
  · rw [hmore]
    exact congrArg (List.drop 1) hmore

end Moves

/-- Taking characters stops at the first one that is not wanted. -/
theorem reads_takeWhile {wanted : Char → Bool} {taken : List Char}
    (h : c.At count p (taken ++ text)) (htaken : ∀ ch ∈ taken, wanted ch = true)
    (hstop : wanted (text.getD 0 endMark) = false) :
    Reads (takeWhile wanted) c taken 1 (p.along taken.length) text := by
  refine reads_bounded h fun fuel hfuel ↦ ?_
  induction taken generalizing c count p fuel with
  | nil =>
    obtain ⟨fuel, rfl⟩ := Nat.exists_eq_succ_of_ne_zero (Nat.ne_of_gt (Nat.zero_lt_of_lt hfuel))
    refine (reads_need h 1).bind fun c hc ↦ reads_char hc Nat.one_pos ?_
    rw [List.nil_append, hstop]
    exact reads_pure hc []
  | cons first taken ih =>
    obtain ⟨hfirst, htaken⟩ := List.forall_mem_cons.mp htaken
    obtain ⟨fuel, rfl⟩ := Nat.exists_eq_succ_of_ne_zero (Nat.ne_of_gt (Nat.zero_lt_of_lt hfuel))
    refine (reads_need h 1).bind fun c hc ↦ reads_first hc ?_
    rw [if_pos hfirst]
    refine (reads_take hc).bind fun c hc ↦ ?_
    have hrest := ih hc htaken fuel (Nat.lt_of_succ_lt_succ hfuel)
    rw [Place.along_along, Nat.add_comm] at hrest
    exact hrest.bind fun c hc ↦ reads_pure hc _

end Scan

end ExprLang.Yaml
