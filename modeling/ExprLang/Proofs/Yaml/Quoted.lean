import ExprLang.Proofs.Yaml.Cursor
import ExprLang.Proofs.Yaml.Folding
import ExprLang.Yaml.Lexeme.Text

/-!
Scalars that the writer has laid out in quotes are read back. A gap is read as the spaces it stands
for (`Laid.exists_reads_gap`), a word as its characters, and words and gaps in turn make up the text
(`Laid.exists_reads_quotedText`).
-/

set_option autoImplicit false

namespace ExprLang.Yaml

/-! ### Gaps -/

/-- The text starts with neither a space nor a line end. -/
def Solid (text : List Char) : Prop := ∀ c ∈ text.head?, c ≠ ' ' ∧ c ≠ '\n'

theorem solid_nil : Solid [] := nofun

theorem solid_cons {c : Char} {rest : List Char} :
    Solid (c :: rest) ↔ c ≠ ' ' ∧ c ≠ '\n' := by
  simp [Solid]

theorem exists_of_not_solid {text : List Char} (h : ¬Solid text) :
    ∃ c rest, text = c :: rest ∧ (c = ' ' ∨ c = '\n') := by
  cases text with
  | nil => exact absurd solid_nil h
  | cons c rest =>
    refine ⟨c, rest, rfl, ?_⟩
    by_contra hne
    exact h (solid_cons.mpr (not_or.mp hne))

/-- A common character that is no space and no line end can be seen. -/
theorem IsCommon.visible {c : Char} (hc : IsCommon c) (hsolid : c ≠ ' ' ∧ c ≠ '\n') :
    isBlank c = false ∧ isBreak c = false ∧ endsWord c = false := by
  rcases hc with hbreak | hprintable
  · exact absurd hbreak hsolid.2
  · have htab : c ≠ '\t' := by
      rintro rfl
      exact absurd hprintable.1 (by decide)
    have hend : c ≠ endMark := by
      rintro rfl
      exact absurd hprintable.1 (by decide)
    have hblank : isBlank c = false := by simp [isBlank, hsolid.1, htab]
    have hbreak := hprintable.isBreak_eq
    exact ⟨hblank, hbreak, by simp [endsWord, hblank, hbreak, hend]⟩

theorem IsPrintable.ne_lineEnd {c : Char} (hc : IsPrintable c) : c ≠ '\n' := by
  rintro rfl
  exact absurd hc.isBreak_eq (by decide)

theorem IsPrintable.endsWord_eq {c : Char} (hc : IsPrintable c) (hblank : c ≠ ' ') :
    endsWord c = false := by
  have hcommon : IsCommon c := .inr hc
  exact (hcommon.visible ⟨hblank, hc.ne_lineEnd⟩).2.2

theorem Solid.stops {text : List Char} (h : Solid text) (hcommon : ∀ c ∈ text, IsCommon c) :
    isBlank (text.getD 0 endMark) = false ∧ isBreak (text.getD 0 endMark) = false := by
  cases text with
  | nil => exact ⟨rfl, rfl⟩
  | cons c rest =>
    obtain ⟨hblank, hbreak, -⟩ := (hcommon c List.mem_cons_self).visible (h c rfl)
    exact ⟨hblank, hbreak⟩

/-- Documents are divided at the start of a line, by dashes or dots. -/
theorem Cursor.atDivider_eq_false {c : Cursor} {count : Nat} {p : Place} {first : Char}
    {text : List Char} (h : c.At (count + 1) p (first :: text))
    (hplace : 0 < p.column ∨ first ≠ '-' ∧ first ≠ '.') : c.atDivider = false := by
  rcases hplace with hcolumn | hfirst
  · have hline : c.column ≠ 0 := by
      rw [h.column]
      omega
    simp [atDivider, hline]
  · obtain ⟨more, hmore⟩ := exists_ahead h
    simp [atDivider, hmore, hfirst]

namespace Gap

open Scan

variable {c : Cursor} {count : Nat} {p : Place} {text : List Char} {margin : Int} {fuel : Nat}

/-- Blanks before the first line end count, and those behind it do not. -/
def addSpaces (count : Nat) (g : Gap) : Gap :=
  if g.isBroken then g else { g with blanks := g.blanks ++ List.replicate count ' ' }

theorem addSpaces_succ (count : Nat) (g : Gap) :
    (g.addBlank ' ').addSpaces count = g.addSpaces (count + 1) := by
  unfold addBlank addSpaces
  split_ifs <;> simp_all [List.replicate_succ]

theorem reads_takeFrom_spaces (g : Gap) {spaces : Nat}
    (h : c.At count p (List.replicate spaces ' ' ++ text)) (hsolid : Solid text)
    (hfuel : spaces < fuel) :
    Reads (g.takeFrom margin fuel) c (g.addSpaces spaces) 1 (p.along spaces) text := by
  induction spaces generalizing c count p g fuel with
  | zero =>
    obtain ⟨fuel, rfl⟩ := Nat.exists_eq_succ_of_ne_zero (Nat.ne_of_gt hfuel)
    have hsame : g.addSpaces 0 = g := by
      unfold addSpaces
      split_ifs <;> simp
    have htext : c.At count p text := h
    obtain ⟨hblank, hbreak⟩ := hsolid.stops htext.common
    rw [hsame]
    refine (reads_need htext 1).bind fun c hc ↦ reads_char hc Nat.one_pos ?_
    rw [hblank, if_neg Bool.false_ne_true, hbreak, if_neg Bool.false_ne_true]
    exact reads_pure hc g
  | succ spaces ih =>
    obtain ⟨fuel, rfl⟩ := Nat.exists_eq_succ_of_ne_zero (Nat.ne_of_gt (Nat.zero_lt_of_lt hfuel))
    refine (reads_need h 1).bind fun c hc ↦ reads_first hc (reads_get ?_)
    rw [if_neg (by simp)]
    refine (reads_step hc).bind fun c hc ↦ ?_
    have hrest := ih (g.addBlank ' ') hc (Nat.lt_of_succ_lt_succ hfuel)
    rw [addSpaces_succ, Place.along_along, Nat.add_comm 1] at hrest
    exact hrest

theorem reads_takeFrom_line {indent : Nat}
    (h : c.At count p ('\n' :: List.replicate indent ' ' ++ text)) (hsolid : Solid text)
    (hfuel : indent + 1 < fuel) :
    Reads (empty.takeFrom margin fuel) c ⟨[], ['\n'], [], true⟩ 1 (p.below.along indent) text := by
  obtain ⟨fuel, rfl⟩ := Nat.exists_eq_succ_of_ne_zero (Nat.ne_of_gt (Nat.zero_lt_of_lt hfuel))
  refine (reads_need h 1).bind fun c hc ↦ reads_first hc ?_
  refine (reads_passBreak hc).bind fun c hc ↦ ?_
  exact reads_takeFrom_spaces ⟨[], ['\n'], [], true⟩ hc hsolid (Nat.lt_of_succ_lt_succ hfuel)

end Gap

/-! ### What has been laid out -/

namespace Laid

variable {style : Style} {indent : Nat} {text written : List Char}

theorem exists_ink {c : Char} {ink : List Char} (h : style.Inks c ink) :
    ∃ first more, ink = first :: more ∧ first ≠ ' ' ∧ first ≠ '\n' := by
  obtain ⟨hc, ⟨hblank, rfl⟩ | ⟨-, -, rfl⟩⟩ := h
  · exact Writer.exists_character style hc hblank
  · exact ⟨'\\', [' '], rfl, by decide, by decide⟩

theorem eq_nil (h : Laid style indent text []) : text = [] := by
  generalize hwritten : ([] : List Char) = written at h
  cases h with
  | nil => rfl
  | character hink =>
    obtain ⟨first, more, rfl, -⟩ := exists_ink hink
    contradiction
  | blank | fold => contradiction

/-- Blanks are followed by a word, or end the text. -/
theorem exists_blanks (h : Laid style indent text written) (hblank : written.head? = some ' ') :
    ∃ count text' written', text = List.replicate (count + 1) ' ' ++ text' ∧
      written = List.replicate (count + 1) ' ' ++ written' ∧ Laid style indent text' written' ∧
      Solid written' := by
  induction h with
  | nil => contradiction
  | character hink _ _ =>
    obtain ⟨first, more, rfl, hfirst, -⟩ := exists_ink hink
    exact absurd (Option.some.inj hblank) hfirst
  | fold => exact absurd hblank (by simp)
  | @blank text written h hnext ih =>
    by_cases hmore : written.head? = some ' '
    · obtain ⟨count, text', written', rfl, rfl, hlaid, hsolid⟩ := ih hmore
      exact ⟨count + 1, text', written', rfl, rfl, hlaid, hsolid⟩
    · refine ⟨0, text, written, rfl, rfl, h, fun c hc ↦ ⟨?_, ?_⟩⟩
      · rintro rfl
        exact hmore hc
      · rintro rfl
        exact hnext hc

open Scan

/-- A gap is read as what it stands for, and a word or the end of the text follows. -/
theorem exists_reads_gap (h : Laid style indent text written) (hgap : ¬Solid written) (p : Place)
    (behind : List Char) (hbehind : text.getLast? = some ' ' → Solid behind) :
    ∃ g text' written' p', text = g.text ++ text' ∧ g.text.getLast? = some ' ' ∧
      Laid style indent text' written' ∧ Solid written' ∧ written'.length < written.length ∧
      min p.column indent ≤ p'.column ∧
      ∀ {c : Cursor} {count : Nat} (margin : Int) {fuel : Nat},
        c.At count p (written ++ behind) → written.length < fuel →
        Reads (Gap.empty.takeFrom margin fuel) c g 1 p' (written' ++ behind) := by
  have hsolid : ∀ {text' written' : List Char}, Laid style indent text' written' →
      Solid written' → (text' = [] → text.getLast? = some ' ') → Solid (written' ++ behind) := by
    intro text' written' hlaid hsolid hlast
    cases written' with
    | nil => exact hbehind (hlast hlaid.eq_nil)
    | cons first more => exact solid_cons.mpr (hsolid first rfl)
  by_cases hblank : written.head? = some ' '
  · obtain ⟨spaces, text', written', rfl, rfl, hlaid, hword⟩ := h.exists_blanks hblank
    have hrest := hsolid hlaid hword (by rintro rfl; simp [List.replicate_succ'])
    refine ⟨Gap.empty.addSpaces (spaces + 1), text', written', p.along (spaces + 1), rfl,
      by simp [Gap.addSpaces, Gap.empty, Gap.text, List.replicate_succ'], hlaid, hword, by simp,
      ?_, ?_⟩
    · show min p.column indent ≤ p.column + (spaces + 1)
      omega
    · intro c count margin fuel hat hfuel
      rw [List.append_assoc] at hat
      rw [List.length_append, List.length_replicate] at hfuel
      exact Gap.reads_takeFrom_spaces .empty hat hrest (by omega)
  · generalize hwritten : written = out at h
    cases h with
    | nil =>
      subst hwritten
      exact absurd solid_nil hgap
    | character hink _ =>
      obtain ⟨first, more, rfl, hfirst⟩ := exists_ink hink
      subst hwritten
      exact absurd (solid_cons.mpr hfirst) hgap
    | blank =>
      subst hwritten
      exact absurd rfl hblank
    | @fold text' rest next hlaid hnext =>
      subst hwritten
      refine ⟨⟨[], ['\n'], [], true⟩, text', next :: rest, p.below.along indent, rfl, rfl, hlaid,
        solid_cons.mpr hnext, ?_, ?_, ?_⟩
      · simp only [Writer.spaces, List.length_append, List.length_cons, List.length_replicate]
        omega
      · show min p.column indent ≤ 0 + indent
        omega
      · intro c count margin fuel hat hfuel
        rw [Writer.spaces, List.append_assoc] at hat
        simp only [Writer.spaces, List.length_append, List.length_cons, List.length_replicate]
          at hfuel
        have hword : Solid (next :: rest ++ behind) := solid_cons.mpr hnext
        exact Gap.reads_takeFrom_line hat hword (by omega)

end Laid

/-! ### Quoted scalars -/

/-- The style that quotes stand for. -/
def quoteStyle (isDouble : Bool) : Style := if isDouble then .double else .single

def quoteMark (isDouble : Bool) : Char := if isDouble then '\x22' else '\x27'

namespace Laid

open Scan

variable {isDouble : Bool} {indent : Nat} {text written : List Char}

/-- A character behind a backslash stands for another one. -/
theorem reads_escape {letter ch : Char} {rest : List Char} (hletter : codeLength? letter = none)
    (hch : escaped? letter = some ch) {p : Place} {c : Cursor}
    (hat : c.At 2 p ('\\' :: letter :: rest)) : Reads escape c ch 0 (p.along 2) rest := by
  refine reads_char hat Nat.one_lt_two ?_
  rw [List.getD_cons_succ, List.getD_cons_zero, hletter, hch]
  exact (reads_steps ['\\', letter] hat).bind fun c hc ↦ reads_pure hc ch

/-- A character that was written in quotes is read back. -/
theorem reads_quotedWord_ink {ch : Char} {ink rest word u : List Char}
    (hink : (quoteStyle isDouble).Inks ch ink) {p q : Place} {fuel : Nat} {c : Cursor}
    (hat : c.At 2 p (ink ++ rest))
    (hrest : ∀ c', c'.At 2 (p.along ink.length) rest →
      Reads (quotedWord isDouble fuel) c' (word, false) 2 q u) :
    Reads (quotedWord isDouble (fuel + 1)) c (ch :: word, false) 2 q u := by
  have hgo : ∀ c', c'.At 0 (p.along ink.length) rest →
      Reads (need 2 >>= fun _ ↦ quotedWord isDouble fuel >>= fun r ↦ pure (ch :: r.1, r.2)) c'
        (ch :: word, false) 2 q u := by
    intro c' hc'
    refine (reads_need hc' 2).bind fun c'' hc'' ↦ (hrest c'' hc'').bind fun c hc ↦ ?_
    exact reads_pure hc _
  obtain ⟨hch, ⟨hblank, rfl⟩ | ⟨hdouble, rfl, rfl⟩⟩ := hink
  · have hends : endsWord ch = false := hch.endsWord_eq hblank
    cases isDouble with
    | false =>
      rcases Writer.character_cases .single hch with h | ⟨-, rfl, h⟩ | ⟨hs, -⟩
      · have hquote : ch ≠ '\x27' := by
          rintro rfl
          contradiction
        rw [quoteStyle, if_neg Bool.false_ne_true, h] at hat hgo
        refine reads_first hat (reads_char hat Nat.one_lt_two ?_)
        simp only [hends, hquote, Bool.not_false, Bool.true_and, Bool.false_and, decide_false,
          Bool.false_eq_true, if_false]
        exact ((reads_step hat).mono (Nat.zero_le 1)).bind hgo
      · rw [quoteStyle, if_neg Bool.false_ne_true, h] at hat hgo
        refine reads_first hat (reads_char hat Nat.one_lt_two ?_)
        exact (reads_steps ['\x27', '\x27'] hat).bind hgo
      · contradiction
    | true =>
      rcases Writer.character_cases .double hch with h | ⟨hs, -⟩ | ⟨-, hquote, h⟩
      · have hplain : ch ≠ '\x22' ∧ ch ≠ '\\' := by
          constructor <;>
          · rintro rfl
            contradiction
        rw [quoteStyle, if_pos rfl, h] at hat hgo
        refine reads_first hat (reads_char hat Nat.one_lt_two ?_)
        simp only [hends, hplain, Bool.not_true, Bool.true_and, Bool.false_and, decide_false,
          Bool.false_eq_true, if_false]
        exact ((reads_step hat).mono (Nat.zero_le 1)).bind hgo
      · contradiction
      · rw [quoteStyle, if_pos rfl, h] at hat hgo
        refine reads_first hat (reads_char hat Nat.one_lt_two ?_)
        rcases hquote with rfl | rfl
        · exact (reads_escape rfl rfl hat).bind hgo
        · exact (reads_escape rfl rfl hat).bind hgo
  · obtain rfl : isDouble = true := by
      cases isDouble
      · contradiction
      · rfl
    refine reads_first hat (reads_char hat Nat.one_lt_two ?_)
    exact (reads_escape rfl rfl hat).bind hgo

/-- A word in quotes ends before a gap or the closing quote. -/
theorem exists_reads_quotedWord (h : Laid (quoteStyle isDouble) indent text written)
    {behind : List Char} (hbehind : behind.head? ≠ some '\x27') (p : Place) :
    ∃ word text' written' p', text = word ++ text' ∧
      Laid (quoteStyle isDouble) indent text' written' ∧ (written' = [] ∨ ¬Solid written') ∧
      written'.length ≤ written.length ∧ p.column ≤ p'.column ∧
      ∀ {c : Cursor} {fuel : Nat}, c.At 2 p (written ++ quoteMark isDouble :: behind) →
        written.length < fuel → Reads (quotedWord isDouble fuel) c (word, false) 2 p'
          (written' ++ quoteMark isDouble :: behind) := by
  induction h generalizing p with
  | nil =>
    refine ⟨[], [], [], p, rfl, .nil, .inl rfl, Nat.le_refl _, Nat.le_refl _, fun hat hfuel ↦ ?_⟩
    obtain ⟨fuel, rfl⟩ := Nat.exists_eq_succ_of_ne_zero (Nat.ne_of_gt hfuel)
    refine reads_first hat (reads_char hat Nat.one_lt_two ?_)
    cases isDouble with
    | true => exact reads_pure hat _
    | false =>
      have hnext : behind.getD 0 endMark ≠ '\x27' := by
        cases behind with
        | nil => decide
        | cons first more => simpa using hbehind
      show Reads (if behind.getD 0 endMark = '\x27' then _ else _) _ _ _ _ _
      rw [if_neg hnext]
      exact reads_pure hat _
  | @character ch ink text written hink hlaid ih =>
    obtain ⟨word, text', written', p', rfl, hlaid', hgap, hlength, hcolumn, hreads⟩ :=
      ih (p.along ink.length)
    obtain ⟨first, more, hfirst, -⟩ := exists_ink hink
    have hpositive : 0 < ink.length := by simp [hfirst]
    refine ⟨ch :: word, text', written', p', rfl, hlaid', hgap, ?_, ?_, fun hat hfuel ↦ ?_⟩
    · rw [List.length_append]
      omega
    · exact Nat.le_trans (Nat.le_add_right _ _) hcolumn
    · obtain ⟨fuel, rfl⟩ := Nat.exists_eq_succ_of_ne_zero (Nat.ne_of_gt (Nat.zero_lt_of_lt hfuel))
      rw [List.append_assoc] at hat
      rw [List.length_append] at hfuel
      exact reads_quotedWord_ink hink hat fun c hc ↦ hreads hc (by omega)
  | blank hlaid hnext =>
    refine ⟨[], _, _, p, rfl, hlaid.blank hnext, .inr ?_, Nat.le_refl _, Nat.le_refl _,
      fun hat hfuel ↦ ?_⟩
    · simp [solid_cons]
    · obtain ⟨fuel, rfl⟩ := Nat.exists_eq_succ_of_ne_zero (Nat.ne_of_gt (Nat.zero_lt_of_lt hfuel))
      exact reads_first hat (reads_char hat Nat.one_lt_two (reads_pure hat _))
  | fold hlaid hnext =>
    refine ⟨[], _, _, p, rfl, hlaid.fold hnext, .inr ?_, Nat.le_refl _, Nat.le_refl _,
      fun hat hfuel ↦ ?_⟩
    · simp [solid_cons]
    · obtain ⟨fuel, rfl⟩ := Nat.exists_eq_succ_of_ne_zero (Nat.ne_of_gt (Nat.zero_lt_of_lt hfuel))
      exact reads_first hat (reads_char hat Nat.one_lt_two (reads_pure hat _))

/-- A round of a quoted scalar takes a word, and then the gap and the words behind it. -/
theorem reads_quotedFrom_succ {p q r : Place} {text word rest whole u : List Char}
    {fuel m count : Nat} {c : Cursor} (hat : c.At count p text) (htext : text ≠ [])
    (hcolumn : 0 < p.column)
    (hword : ∀ c, c.At 4 p text →
      Reads (bounded (quotedWord isDouble)) c (word, false) 2 q rest)
    (hrest : ∀ c, c.At 1 q rest → Reads (if rest.getD 0 endMark = quoteMark isDouble then
        pure word
      else bounded (fun fuel ↦ Gap.empty.takeFrom 0 fuel) >>= fun gap ↦
        quotedFrom isDouble fuel >>= fun later ↦ pure (word ++ gap.text ++ later)) c whole m r u) :
    Reads (quotedFrom isDouble (fuel + 1)) c whole m r u := by
  refine (reads_need hat 4).bind fun c hc ↦ reads_get ?_
  obtain ⟨first, more, rfl⟩ := List.exists_cons_of_ne_nil htext
  refine reads_first hc ?_
  have hfirst : first ≠ endMark := fun h ↦ endMark_not_mem hc.common (h ▸ List.mem_cons_self)
  have hdivider : c.atDivider = false := Cursor.atDivider_eq_false hc (.inl hcolumn)
  rw [if_neg (by simp [hdivider, hfirst])]
  refine (hword c hc).bind fun c hc ↦ (reads_need hc 1).bind fun c hc ↦ ?_
  exact reads_char hc Nat.one_pos (hrest c hc)

/-- Words and gaps up to the closing quote make up the text. -/
theorem exists_reads_quotedFrom (h : Laid (quoteStyle isDouble) indent text written)
    (hindent : 0 < indent) {behind : List Char} (hbehind : behind.head? ≠ some '\x27') (p : Place)
    (hcolumn : 0 < p.column) :
    ∃ p', 0 < p'.column ∧ ∀ {c : Cursor} {count fuel : Nat},
      c.At count p (written ++ quoteMark isDouble :: behind) → written.length < fuel →
      Reads (quotedFrom isDouble fuel) c text 1 p' (quoteMark isDouble :: behind) := by
  induction hlength : written.length using Nat.strongRecOn generalizing text written p with
  | ind n ih =>
    subst hlength
    obtain ⟨word, text₁, written₁, p₁, rfl, hlaid₁, hgap, hle, hcolumn₁, hword⟩ :=
      h.exists_reads_quotedWord hbehind p
    have hbounded : ∀ c, c.At 4 p (written ++ quoteMark isDouble :: behind) →
        Reads (bounded (quotedWord isDouble)) c (word, false) 2 p₁
          (written₁ ++ quoteMark isDouble :: behind) := by
      refine fun c hc ↦ reads_bounded hc fun fuel hfuel ↦ hword (hc.mono (by decide)) ?_
      rw [List.length_append] at hfuel
      omega
    rcases hgap with rfl | hgap
    · obtain rfl := hlaid₁.eq_nil
      refine ⟨p₁, by omega, fun hat hfuel ↦ ?_⟩
      obtain ⟨fuel, rfl⟩ := Nat.exists_eq_succ_of_ne_zero (Nat.ne_of_gt (Nat.zero_lt_of_lt hfuel))
      refine reads_quotedFrom_succ hat (by simp) hcolumn hbounded fun c hc ↦ ?_
      show Reads (if quoteMark isDouble = quoteMark isDouble then _ else _) c _ 1 p₁ _
      rw [if_pos rfl, List.append_nil]
      exact reads_pure hc word
    · have hquote : Solid (quoteMark isDouble :: behind) := by
        cases isDouble <;> exact solid_cons.mpr (by decide)
      obtain ⟨g, text₂, written₂, p₂, rfl, -, hlaid₂, -, hlt, hcolumn₂, hreads⟩ :=
        hlaid₁.exists_reads_gap hgap p₁ (quoteMark isDouble :: behind) fun _ ↦ hquote
      obtain ⟨p₃, hcolumn₃, hrest⟩ := ih written₂.length (by omega) hlaid₂ p₂ (by omega) rfl
      refine ⟨p₃, hcolumn₃, fun hat hfuel ↦ ?_⟩
      obtain ⟨fuel, rfl⟩ := Nat.exists_eq_succ_of_ne_zero (Nat.ne_of_gt (Nat.zero_lt_of_lt hfuel))
      refine reads_quotedFrom_succ hat (by simp) hcolumn hbounded fun c hc ↦ ?_
      have hnoquote : (written₁ ++ quoteMark isDouble :: behind).getD 0 endMark ≠
          quoteMark isDouble := by
        obtain ⟨c, rest, rfl, rfl | rfl⟩ := exists_of_not_solid hgap
        · cases isDouble <;> exact nofun
        · cases isDouble <;> exact nofun
      rw [if_neg hnoquote]
      refine (reads_bounded hc fun fuel hfuel ↦ hreads 0 hc ?_).bind fun c hc ↦ ?_
      · rw [List.length_append] at hfuel
        omega
      · refine (hrest hc (by omega)).bind fun c hc ↦ ?_
        rw [← List.append_assoc]
        exact reads_pure hc _

/-- A quoted scalar is read up to its closing quote. -/
theorem exists_reads_quotedText (h : Laid (quoteStyle isDouble) indent text written)
    (hindent : 0 < indent) {behind : List Char} (hbehind : behind.head? ≠ some '\x27') (p : Place) :
    ∃ p', 0 < p'.column ∧ ∀ {c : Cursor} {count : Nat},
      c.At (count + 1) p (quoteMark isDouble :: (written ++ quoteMark isDouble :: behind)) →
      Reads (quotedText isDouble) c (String.ofList text) 0 p' behind := by
  obtain ⟨p', hcolumn, hreads⟩ :=
    h.exists_reads_quotedFrom hindent hbehind (p.along 1) (Nat.lt_add_left _ Nat.one_pos)
  refine ⟨p'.along 1, Nat.lt_add_left _ Nat.one_pos, fun hat ↦ ?_⟩
  refine (reads_step hat).bind fun c hc ↦ ?_
  refine (reads_bounded hc fun fuel hfuel ↦ hreads hc ?_).bind fun c hc ↦ ?_
  · rw [List.length_append] at hfuel
    omega
  · exact (reads_step hc).bind fun c hc ↦ reads_pure hc _

end Laid

end ExprLang.Yaml
