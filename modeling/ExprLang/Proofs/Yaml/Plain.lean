import ExprLang.Proofs.Yaml.Quoted
import ExprLang.Yaml.Lexeme.Queue

/-!
Scalars without quotes are read back. A text that nothing breaks off (`Style.Unbroken`) goes on over
its gaps up to a line with less indentation (`Laid.exists_reads_plainText`), and a key up to its
colon (`IsKey.reads_plainText`).
-/

set_option autoImplicit false

namespace ExprLang.Yaml

namespace Style

variable {holds : Char → Char → Bool} {text : List Char}

theorem anyPair_tail {c : Char} (h : anyPair holds (c :: text) = false) :
    anyPair holds text = false := by
  cases text with
  | nil => rfl
  | cons d rest => exact (Bool.or_eq_false_iff.mp h).2

/-- No plain scalar ends inside the text, or just before its end. -/
structure Unbroken (text : List Char) : Prop where
  pairs : anyPair ends text = false
  blank : text.getLast? ≠ some ' '
  colon : text.getLast? ≠ some ':'

namespace Unbroken

theorem tail {c : Char} (h : Unbroken (c :: text)) : Unbroken text := by
  cases text with
  | nil => exact ⟨rfl, nofun, nofun⟩
  | cons d rest =>
    have hlast : (c :: d :: rest).getLast? = (d :: rest).getLast? := List.getLast?_cons_cons
    exact ⟨anyPair_tail h.pairs, hlast ▸ h.blank, hlast ▸ h.colon⟩

theorem append {first : List Char} (h : Unbroken (first ++ text)) : Unbroken text := by
  induction first with
  | nil => exact h
  | cons c first ih => exact ih h.tail

/-- Behind a colon a word goes on. -/
theorem head_of_colon (h : Unbroken (':' :: text)) : ∃ c rest, text = c :: rest ∧ c ≠ ' ' := by
  cases text with
  | nil => exact absurd rfl h.colon
  | cons c rest =>
    refine ⟨c, rest, rfl, ?_⟩
    rintro rfl
    exact absurd h.pairs (by simp [anyPair, ends, isBlank])

/-- Behind a blank no comment starts. -/
theorem head_of_blank {blanks : List Char} (h : Unbroken (blanks ++ text))
    (hblanks : blanks.getLast? = some ' ') : ∃ c rest, text = c :: rest ∧ c ≠ '#' := by
  obtain ⟨first, rfl⟩ := List.getLast?_eq_some_iff.mp hblanks
  rw [List.append_assoc] at h
  cases text with
  | nil => exact absurd rfl h.append.blank
  | cons c rest =>
    refine ⟨c, rest, rfl, ?_⟩
    rintro rfl
    exact absurd h.append.pairs (by simp [anyPair, ends, isBlank])

end Unbroken

end Style

/-- A key of small letters and underscores, not too far away from its colon. -/
def IsKey (key : List Char) : Prop :=
  key ≠ [] ∧ (∀ c ∈ key, 'a' ≤ c ∧ c ≤ 'z' ∨ c = '_') ∧ key.length ≤ Queue.keyReach

instance (key : List Char) : Decidable (IsKey key) := inferInstanceAs (Decidable (_ ∧ _ ∧ _))

namespace Laid

open Scan

variable {indent : Nat} {text written : List Char}

/-- Without quotes all but blanks is written as it is. -/
theorem ink_plain {c : Char} {ink : List Char} (h : Style.plain.Inks c ink) :
    ink = [c] ∧ c ≠ ' ' := by
  obtain ⟨-, ⟨hblank, rfl⟩ | ⟨hdouble, -⟩⟩ := h
  · exact ⟨rfl, hblank⟩
  · contradiction

/-- Where the text does not start with a blank, nor does what is written. -/
theorem solid_of_head {c : Char} (h : Laid .plain indent (c :: text) written) (hc : c ≠ ' ') :
    IsPrintable c ∧ ∃ more, written = c :: more := by
  cases h with
  | character hink hlaid =>
    obtain ⟨rfl, -⟩ := ink_plain hink
    exact ⟨hink.1, _, rfl⟩
  | blank | fold => contradiction

theorem ne_blank_of_solid {c : Char} (h : Laid .plain indent (c :: text) written)
    (hsolid : Solid written) : c ≠ ' ' := by
  cases h with
  | character hink => exact (ink_plain hink).2
  | blank => exact absurd rfl (solid_cons.mp hsolid).1
  | fold => exact absurd rfl (solid_cons.mp hsolid).2

/-- A word goes on with anything but a blank, a line end, or a colon before one of those. -/
theorem reads_plainWord_succ {ch : Char} {rest word u : List Char} {p q : Place} {fuel : Nat}
    {c : Cursor} (hat : c.At 2 p (ch :: rest)) (hends : endsWord ch = false)
    (hcolon : ch = ':' → endsWord (rest.getD 0 endMark) = false)
    (hrest : ∀ c', c'.At 2 (p.along 1) rest → Reads (plainWord false fuel) c' word 2 q u) :
    Reads (plainWord false (fuel + 1)) c (ch :: word) 2 q u := by
  refine reads_first hat (reads_char hat Nat.one_lt_two ?_)
  have hgoes : (ch = ':' && endsWord (rest.getD 0 endMark)) = false := by
    by_cases h : ch = ':'
    · rw [hcolon h, Bool.and_false]
    · simp [h]
  rw [List.getD_cons_succ, hends, hgoes, Bool.false_and, Bool.false_or, Bool.false_or,
    if_neg Bool.false_ne_true]
  refine ((reads_step hat).mono (Nat.zero_le 1)).bind fun c hc ↦ ?_
  refine (reads_need hc 2).bind fun c hc ↦ ?_
  exact (hrest c hc).bind fun c hc ↦ reads_pure hc _

/-- A word of a plain scalar ends before a gap or the end of the line. -/
theorem exists_reads_plainWord (h : Laid .plain indent text written)
    (htext : Style.Unbroken text) (behind : List Char) (p : Place) :
    ∃ word text' written' p', text = word ++ text' ∧ Laid .plain indent text' written' ∧
      (written' = [] ∨ ¬Solid written') ∧ (word = [] → written' = written) ∧
      written'.length ≤ written.length ∧ p.column ≤ p'.column ∧
      ∀ {c : Cursor} {fuel : Nat}, c.At 2 p (written ++ '\n' :: behind) →
        written.length < fuel →
        Reads (plainWord false fuel) c word 2 p' (written' ++ '\n' :: behind) := by
  induction h generalizing p with
  | nil =>
    refine ⟨[], [], [], p, rfl, .nil, .inl rfl, fun _ ↦ rfl, Nat.le_refl _, Nat.le_refl _,
      fun hat hfuel ↦ ?_⟩
    obtain ⟨fuel, rfl⟩ := Nat.exists_eq_succ_of_ne_zero (Nat.ne_of_gt hfuel)
    exact reads_first hat (reads_char hat Nat.one_lt_two (reads_pure hat _))
  | @character ch ink text written hink hlaid ih =>
    obtain ⟨rfl, hblank⟩ := ink_plain hink
    obtain ⟨word, text', written', p', rfl, hlaid', hgap, -, hlength, hcolumn, hreads⟩ :=
      ih htext.tail (p.along 1)
    refine ⟨ch :: word, text', written', p', rfl, hlaid', hgap, nofun, ?_, ?_, fun hat hfuel ↦ ?_⟩
    · exact Nat.le_succ_of_le hlength
    · exact Nat.le_trans (Nat.le_add_right _ _) hcolumn
    · obtain ⟨fuel, rfl⟩ := Nat.exists_eq_succ_of_ne_zero (Nat.ne_of_gt (Nat.zero_lt_of_lt hfuel))
      refine reads_plainWord_succ hat (hink.1.endsWord_eq hblank) ?_
        fun c hc ↦ hreads hc (Nat.lt_of_succ_lt_succ hfuel)
      rintro rfl
      obtain ⟨d, rest, hrest, hd⟩ := htext.head_of_colon
      rw [hrest] at hlaid
      obtain ⟨hprintable, more, rfl⟩ := hlaid.solid_of_head hd
      exact hprintable.endsWord_eq hd
  | blank hlaid hnext =>
    refine ⟨[], _, _, p, rfl, hlaid.blank hnext, .inr ?_, fun _ ↦ rfl, Nat.le_refl _,
      Nat.le_refl _, fun hat hfuel ↦ ?_⟩
    · simp [solid_cons]
    · obtain ⟨fuel, rfl⟩ := Nat.exists_eq_succ_of_ne_zero (Nat.ne_of_gt (Nat.zero_lt_of_lt hfuel))
      exact reads_first hat (reads_char hat Nat.one_lt_two (reads_pure hat _))
  | fold hlaid hnext =>
    refine ⟨[], _, _, p, rfl, hlaid.fold hnext, .inr ?_, fun _ ↦ rfl, Nat.le_refl _,
      Nat.le_refl _, fun hat hfuel ↦ ?_⟩
    · simp [solid_cons]
    · obtain ⟨fuel, rfl⟩ := Nat.exists_eq_succ_of_ne_zero (Nat.ne_of_gt (Nat.zero_lt_of_lt hfuel))
      exact reads_first hat (reads_char hat Nat.one_lt_two (reads_pure hat _))

section Round

variable {margin : Int} {p q r : Place} {first : Char} {line word rest u : List Char}
  {gap : Gap} {whole : List Char × Gap} {fuel m count : Nat} {c : Cursor}

/-- A round of a plain scalar takes a word. -/
theorem reads_plainFrom_succ (hat : c.At count p (first :: line)) (hfirst : first ≠ '#')
    (hplace : 0 < p.column ∨ first ≠ '-' ∧ first ≠ '.') (hword : word ≠ [])
    (hreads : ∀ c, c.At 4 p (first :: line) →
      Reads (bounded (plainWord false)) c word 2 q rest)
    (hrest : ∀ c, c.At 2 q rest → Reads
      (if !(isBlank (rest.getD 0 endMark) || isBreak (rest.getD 0 endMark)) then
        pure (gap.text ++ word, Gap.empty)
      else bounded (fun fuel ↦ Gap.empty.takeFrom margin fuel) >>= fun g ↦ get >>= fun c ↦
        if !false && (c.column : Int) < margin then pure (gap.text ++ word, g)
        else plainFrom false margin fuel g >>= fun later ↦
          pure (gap.text ++ word ++ later.1, later.2)) c whole m r u) :
    Reads (plainFrom false margin (fuel + 1) gap) c whole m r u := by
  refine (reads_need hat 4).bind fun c hc ↦ reads_get (reads_first hc ?_)
  rw [if_neg (by simp [Cursor.atDivider_eq_false hc hplace, hfirst])]
  refine (hreads c hc).bind fun c hc ↦ ?_
  have hsome : word.isEmpty = false := by simpa using hword
  rw [hsome, if_neg Bool.false_ne_true]
  exact reads_char hc Nat.zero_lt_two (hrest c hc)

/-- Behind a word and a gap, a plain scalar goes on from its margin only. -/
theorem reads_plainFrom_gap {g : Gap} {q' : Place} {rest' : List Char}
    (hat : c.At count p (first :: line)) (hfirst : first ≠ '#')
    (hplace : 0 < p.column ∨ first ≠ '-' ∧ first ≠ '.') (hword : word ≠ [])
    (hreads : ∀ c, c.At 4 p (first :: line) →
      Reads (bounded (plainWord false)) c word 2 q rest) (hsolid : ¬Solid rest)
    (hgap : ∀ c, c.At 2 q rest →
      Reads (bounded fun fuel ↦ Gap.empty.takeFrom margin fuel) c g 1 q' rest')
    (hrest : ∀ c, c.At 1 q' rest' → Reads
      (if (q'.column : Int) < margin then pure (gap.text ++ word, g)
      else plainFrom false margin fuel g >>= fun later ↦
        pure (gap.text ++ word ++ later.1, later.2)) c whole m r u) :
    Reads (plainFrom false margin (fuel + 1) gap) c whole m r u := by
  refine reads_plainFrom_succ hat hfirst hplace hword hreads fun c hc ↦ ?_
  have hnext : (!(isBlank (rest.getD 0 endMark) || isBreak (rest.getD 0 endMark))) = false := by
    obtain ⟨c, more, rfl, rfl | rfl⟩ := exists_of_not_solid hsolid
    · rfl
    · rfl
  rw [hnext, if_neg Bool.false_ne_true]
  refine (hgap c hc).bind fun c hc ↦ reads_get ?_
  have hgo := hrest c hc
  rw [← hc.column] at hgo
  simpa only [Bool.not_false, Bool.true_and, decide_eq_true_eq] using hgo

/-- At a line with less indentation a plain scalar ends. -/
theorem reads_plainFrom_last {column : Nat} {behind : List Char}
    (hat : c.At count p (first :: line)) (hfirst : first ≠ '#')
    (hplace : 0 < p.column ∨ first ≠ '-' ∧ first ≠ '.') (hword : word ≠ [])
    (hreads : ∀ c, c.At 4 p (first :: line) → Reads (bounded (plainWord false)) c word 2 q
      ('\n' :: (List.replicate column ' ' ++ behind)))
    (hbehind : Solid behind) (hcolumn : (column : Int) < margin) :
    Reads (plainFrom false margin (fuel + 1) gap) c (gap.text ++ word, ⟨[], ['\n'], [], true⟩) 1
      (q.below.along column) behind := by
  have hgap : ∀ c, c.At 2 q ('\n' :: (List.replicate column ' ' ++ behind)) →
      Reads (bounded fun fuel ↦ Gap.empty.takeFrom margin fuel) c ⟨[], ['\n'], [], true⟩ 1
        (q.below.along column) behind := by
    refine fun c hc ↦ reads_bounded hc fun fuel hfuel ↦ ?_
    refine Gap.reads_takeFrom_line hc hbehind ?_
    simp at hfuel
    omega
  have hnotSolid : ¬Solid ('\n' :: (List.replicate column ' ' ++ behind)) := by
    simp [solid_cons]
  refine reads_plainFrom_gap hat hfirst hplace hword hreads hnotSolid hgap fun c hc ↦ ?_
  have houtside : ((q.below.along column).column : Int) < margin := by
    simpa [Place.along, Place.below] using hcolumn
  rw [if_pos houtside]
  exact reads_pure hc _

end Round

/-- Words and gaps up to a line with less indentation make up the text. -/
theorem exists_reads_plainFrom (h : Laid .plain indent text written)
    (htext : Style.Unbroken text) {first : Char} (hfirst : text.head? = some first)
    (hstart : first ≠ ' ' ∧ first ≠ '#') {margin : Int}
    (hindent : margin ≤ indent) {column : Nat} (hcolumn : (column : Int) < margin)
    {behind : List Char} (hbehind : Solid behind) (p : Place) (hp : margin ≤ p.column) :
    ∃ p', p'.column = column ∧ ∀ {c : Cursor} {count fuel : Nat} (gap : Gap),
      c.At count p (written ++ '\n' :: (List.replicate column ' ' ++ behind)) →
      written.length < fuel →
      Reads (plainFrom false margin fuel gap) c (gap.text ++ text, ⟨[], ['\n'], [], true⟩) 1 p'
        behind := by
  induction hlength : written.length using Nat.strongRecOn generalizing text written first p with
  | ind n ih =>
    subst hlength
    obtain ⟨text, rfl⟩ := List.head?_eq_some_iff.mp hfirst
    obtain ⟨hprintable, more, rfl⟩ := h.solid_of_head hstart.1
    obtain ⟨word, text₁, written₁, p₁, hword, hlaid₁, hbreak, hnonempty, hle, hcolumn₁, hreads₁⟩ :=
      h.exists_reads_plainWord htext (List.replicate column ' ' ++ behind) p
    rw [hword] at htext ⊢
    have hsome : word ≠ [] := by
      intro hempty
      rw [hnonempty hempty] at hbreak
      rcases hbreak with hnil | hbreak
      · contradiction
      · exact hbreak (solid_cons.mpr ⟨hstart.1, hprintable.ne_lineEnd⟩)
    have hbounded : ∀ c, c.At 4 p (first :: more ++ '\n' :: (List.replicate column ' ' ++ behind)) →
        Reads (bounded (plainWord false)) c word 2 p₁
          (written₁ ++ '\n' :: (List.replicate column ' ' ++ behind)) := by
      refine fun c hc ↦ reads_bounded hc fun fuel hfuel ↦ hreads₁ (hc.mono (by decide)) ?_
      rw [List.length_append] at hfuel
      omega
    have hplace : 0 < p.column ∨ first ≠ '-' ∧ first ≠ '.' := .inl (by omega)
    rcases hbreak with rfl | hbreak
    · obtain rfl := hlaid₁.eq_nil
      refine ⟨p₁.below.along column, Nat.zero_add column, fun gap hat hfuel ↦ ?_⟩
      obtain ⟨fuel, rfl⟩ := Nat.exists_eq_succ_of_ne_zero (Nat.ne_of_gt (Nat.zero_lt_of_lt hfuel))
      rw [List.append_nil]
      exact reads_plainFrom_last hat hstart.2 hplace hsome hbounded hbehind hcolumn
    · have hnotLast : text₁.getLast? ≠ some ' ' := htext.append.blank
      obtain ⟨g, text₂, written₂, p₂, rfl, hblank, hlaid₂, hsolid₂, hlt, hcolumn₂, hreads₂⟩ :=
        hlaid₁.exists_reads_gap hbreak p₁ ('\n' :: (List.replicate column ' ' ++ behind))
          fun h ↦ absurd h hnotLast
      obtain ⟨second, rest, rfl, hsecond⟩ := htext.append.head_of_blank hblank
      have hspace : second ≠ ' ' := hlaid₂.ne_blank_of_solid hsolid₂
      obtain ⟨p₃, hcolumn₃, hrest⟩ := ih written₂.length (by omega) hlaid₂ htext.append.append rfl
        ⟨hspace, hsecond⟩ p₂ (by omega) rfl
      refine ⟨p₃, hcolumn₃, fun gap hat hfuel ↦ ?_⟩
      obtain ⟨fuel, rfl⟩ := Nat.exists_eq_succ_of_ne_zero (Nat.ne_of_gt (Nat.zero_lt_of_lt hfuel))
      have hnotSolid : ¬Solid (written₁ ++ '\n' :: (List.replicate column ' ' ++ behind)) := by
        obtain ⟨c, rest, rfl, hc⟩ := exists_of_not_solid hbreak
        exact fun h ↦ not_or.mpr (solid_cons.mp h) hc
      refine reads_plainFrom_gap hat hstart.2 hplace hsome hbounded hnotSolid
        (fun c hc ↦ reads_bounded hc fun fuel hfuel ↦ hreads₂ margin hc ?_) fun c hc ↦ ?_
      · rw [List.length_append] at hfuel
        omega
      · have hinside : ¬(p₂.column : Int) < margin := by omega
        rw [if_neg hinside]
        refine (hrest g hc (by omega)).bind fun c hc ↦ ?_
        rw [← List.append_assoc gap.text]
        exact reads_pure hc _

/-- A plain scalar ends with the line end behind it. -/
theorem exists_reads_plainText (h : Laid .plain indent text written)
    (htext : Style.Unbroken text) {first : Char} (hfirst : text.head? = some first)
    (hstart : first ≠ ' ' ∧ first ≠ '#') {margin : Int}
    (hindent : margin ≤ indent) {column : Nat} (hcolumn : (column : Int) < margin)
    {behind : List Char} (hbehind : Solid behind) (p : Place) (hp : margin ≤ p.column) :
    ∃ p', p'.column = column ∧ ∀ {c : Cursor} {count : Nat},
      c.At count p (written ++ '\n' :: (List.replicate column ' ' ++ behind)) →
      Reads (plainText false margin) c (String.ofList text, true) 1 p' behind := by
  obtain ⟨p', hp', hreads⟩ := h.exists_reads_plainFrom htext hfirst hstart hindent hcolumn
    hbehind p hp
  refine ⟨p', hp', fun hat ↦ ?_⟩
  refine (reads_bounded hat fun fuel hfuel ↦ hreads .empty hat ?_).bind fun c hc ↦ reads_pure hc _
  rw [List.length_append] at hfuel
  omega

end Laid

namespace IsKey

open Scan

variable {key : List Char} {c : Cursor} {count : Nat} {p : Place} {sep : Char} {behind : List Char}

/-- The characters of keys have no meaning of their own. -/
theorem letter {ch : Char} (hkey : IsKey key) (hch : ch ∈ key) :
    IsPrintable ch ∧ (∀ other ∈ " -?:.".toList, ch ≠ other) ∧ Style.isReserved ch = false := by
  obtain ⟨-, hletters, -⟩ := hkey
  have hblank : ∀ other ∈ " -?:.".toList, ¬('a' ≤ other ∧ other ≤ 'z' ∨ other = '_') := by
    decide
  have hreserved : ∀ other ∈ "#,[]\x7b\x7d&*!|>'\x22%@`".toList,
      ¬('a' ≤ other ∧ other ≤ 'z' ∨ other = '_') := by
    decide
  refine ⟨?_, fun other hother ↦ ?_, ?_⟩
  · rcases hletters ch hch with ⟨hlow, hhigh⟩ | rfl
    · exact ⟨Nat.le_trans (by decide) hlow, Nat.le_trans hhigh (by decide)⟩
    · exact ⟨by decide, by decide⟩
  · rintro rfl
    exact hblank ch hother (hletters ch hch)
  · rw [Style.isReserved, ← Bool.not_eq_true, List.contains_iff_mem]
    exact fun hmem ↦ hreserved ch hmem (hletters ch hch)

/-- The word of a key ends at its colon. -/
theorem reads_plainWord {word : List Char} (hletters : ∀ ch ∈ word, endsWord ch = false ∧ ch ≠ ':')
    (hsep : endsWord sep = true) {fuel : Nat} (hat : c.At 2 p (word ++ ':' :: sep :: behind))
    (hfuel : word.length < fuel) :
    Reads (plainWord false fuel) c word 2 (p.along word.length) (':' :: sep :: behind) := by
  induction word generalizing c p fuel with
  | nil =>
    obtain ⟨fuel, rfl⟩ := Nat.exists_eq_succ_of_ne_zero (Nat.ne_of_gt hfuel)
    refine reads_first hat (reads_char hat Nat.one_lt_two ?_)
    have hends : (endsWord ':' || (':' = ':' && endsWord sep) ||
        (false && isFlowMark ':')) = true := by
      simp [hsep]
    exact (if_pos hends).symm ▸ reads_pure hat []
  | cons ch word ih =>
    obtain ⟨⟨hends, hcolon⟩, hword⟩ := List.forall_mem_cons.mp hletters
    obtain ⟨fuel, rfl⟩ := Nat.exists_eq_succ_of_ne_zero (Nat.ne_of_gt (Nat.zero_lt_of_lt hfuel))
    refine Laid.reads_plainWord_succ hat hends (fun h ↦ absurd h hcolon) fun c hc ↦ ?_
    have hrest := ih hword hc (Nat.lt_of_succ_lt_succ hfuel)
    rw [Place.along_along, Nat.add_comm 1] at hrest
    exact hrest

/-- A key is a plain scalar up to its colon. -/
theorem reads_plainText (hkey : IsKey key) (margin : Int) (hsep : endsWord sep = true)
    (hat : c.At count p (key ++ ':' :: sep :: behind)) :
    Reads (plainText false margin) c (String.ofList key, false) 2 (p.along key.length)
      (':' :: sep :: behind) := by
  obtain ⟨first, rest, rfl⟩ := List.exists_cons_of_ne_nil hkey.1
  have hletters : ∀ ch ∈ first :: rest, endsWord ch = false ∧ ch ≠ ':' := by
    intro ch hch
    obtain ⟨hprintable, hblank, -⟩ := hkey.letter hch
    exact ⟨hprintable.endsWord_eq (hblank ' ' (by decide)), hblank ':' (by decide)⟩
  obtain ⟨-, hfirst, hreserved⟩ := hkey.letter List.mem_cons_self
  have hcomment : first ≠ '#' := by
    rintro rfl
    contradiction
  have hword : ∀ c, c.At 4 p (first :: rest ++ ':' :: sep :: behind) →
      Reads (bounded (plainWord false)) c (first :: rest) 2 (p.along (first :: rest).length)
        (':' :: sep :: behind) := by
    refine fun c hc ↦ reads_bounded hc fun fuel hfuel ↦ ?_
    rw [List.length_append] at hfuel
    exact reads_plainWord hletters hsep (hc.mono (by decide)) (by omega)
  have hplace : first ≠ '-' ∧ first ≠ '.' := ⟨hfirst '-' (by decide), hfirst '.' (by decide)⟩
  have hreads : Reads (bounded fun fuel ↦ plainFrom false margin fuel .empty) c
      (first :: rest, Gap.empty) 2 (p.along (first :: rest).length) (':' :: sep :: behind) := by
    refine reads_bounded hat fun fuel hfuel ↦ ?_
    obtain ⟨fuel, rfl⟩ := Nat.exists_eq_succ_of_ne_zero (Nat.ne_of_gt (Nat.zero_lt_of_lt hfuel))
    refine Laid.reads_plainFrom_succ hat hcomment (.inr hplace) hkey.1 hword fun c hc ↦ ?_
    exact reads_pure hc _
  exact hreads.bind fun c hc ↦ reads_pure hc _

end IsKey

/-! ### How plain scalars start -/

/-- A plain scalar can start with these two characters. -/
def Opens (first next : Char) : Prop :=
  Style.isReserved first = false ∧ endsWord first = false ∧
    (first = '-' ∨ first = '?' ∨ first = ':' → endsWord next = false)

namespace Opens

variable {first next : Char}

theorem of_isKey {more : List Char} (hkey : IsKey (first :: more)) : Opens first next := by
  obtain ⟨hprintable, hmarks, hreserved⟩ := hkey.letter List.mem_cons_self
  refine ⟨hreserved, hprintable.endsWord_eq (hmarks ' ' (by decide)), ?_⟩
  rintro (rfl | rfl | rfl)
  · exact absurd rfl (hmarks '-' (by decide))
  · exact absurd rfl (hmarks '?' (by decide))
  · exact absurd rfl (hmarks ':' (by decide))

theorem isIndicator_iff (h : Opens first next) :
    Queue.isIndicator first = true ↔ first = '-' ∨ first = '?' ∨ first = ':' := by
  obtain ⟨hreserved, -⟩ := h
  simp only [Style.isReserved, Queue.isIndicator] at hreserved ⊢
  simp at hreserved
  simp [hreserved]

theorem startsPlain (h : Opens first next) : Queue.startsPlain false first next = true := by
  have hends := h.2.1
  have hnext := h.2.2
  unfold Queue.startsPlain
  simp only [Bool.or_eq_true, decide_eq_true_eq]
  split_ifs with hdash hmark
  · have hgoes := hnext (.inl hdash)
    simp only [endsWord, Bool.or_eq_false_iff] at hgoes
    simp [hgoes]
  · simp [hnext (.inr hmark)]
  · have hplain : Queue.isIndicator first = false := by
      rw [← Bool.not_eq_true, h.isIndicator_iff]
      exact not_or.mpr ⟨hdash, hmark⟩
    simp [hends, hplain]

end Opens

end ExprLang.Yaml
