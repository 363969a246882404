import ExprLang.Proofs.Token.Scanned
import Mathlib.Data.List.DropRight

/-!
Where tokens stand. The place of a character is told by the text in front of it
(`placeBehind`), and this is the place that a scan keeps (`placeAfter_eq`). A text that is scanned
is tiled by its tokens, each a piece of one line, with nothing but layout around them
(`tiles_of_mapM_finish`). Read character by character, a tiling says that every token spells what
stands in its span, that spans follow each other, and that no character is lost (`scan_lossless`).
-/

set_option autoImplicit false

namespace ExprLang.Token

/-! ### Places -/

/-- The place of a character with the text `before` in front of it. Its line counts the line ends
there, and its column the characters behind the last of them, both from one on. -/
def placeBehind (file : String) (before : List Char) : Position :=
  ⟨file, 1 + before.count '\n', 1 + (before.rtakeWhile (· ≠ '\n')).length⟩

/-- The place of the character number `i` of a text. -/
def placeOf (file : String) (text : List Char) (i : Nat) : Position :=
  placeBehind file (text.take i)

theorem placeBehind_concat (file : String) (before : List Char) (c : Char) :
    placeBehind file (before ++ [c]) = Scanner.advance (placeBehind file before) c := by
  unfold Scanner.advance
  split_ifs with hc
  · subst hc
    simp [placeBehind]
    omega
  · simp [placeBehind, Position.right, List.count_append, hc]
    omega

/-- The place that a scan keeps is that of the next character. -/
theorem placeAfter_placeBehind (file : String) (before text : List Char) :
    placeAfter (placeBehind file before) text = placeBehind file (before ++ text) := by
  induction text generalizing before with
  | nil => rw [placeAfter_nil, List.append_nil]
  | cons c rest ih => rw [placeAfter_cons, ← placeBehind_concat, ih, ← List.append_cons]

theorem placeAfter_eq (file : String) (text : List Char) :
    placeAfter ⟨file, 1, 1⟩ text = placeBehind file text :=
  placeAfter_placeBehind file [] text

/-- On one line a place moves right by one column for each character. -/
theorem placeBehind_append (file : String) (before : List Char) {more : List Char}
    (h : '\n' ∉ more) :
    placeBehind file (before ++ more) = (placeBehind file before).right more.length := by
  induction more using List.reverseRecOn with
  | nil => simp [Position.right]
  | append_singleton more c ih =>
    rw [List.mem_append, List.mem_singleton, not_or] at h
    have hc : c ≠ '\n' := Ne.symm h.2
    rw [← List.append_assoc, placeBehind_concat, ih h.1, Scanner.advance, if_neg hc]
    simp [Position.right, Int.add_assoc]

/-- Places come in the order of the characters. -/
theorem before_placeBehind (file : String) (before : List Char) {more : List Char}
    (h : more ≠ []) : (placeBehind file before).Before (placeBehind file (before ++ more)) := by
  induction more generalizing before with
  | nil => contradiction
  | cons c rest ih =>
    have hnext := before_advance (placeBehind file before) c
    rw [← placeBehind_concat] at hnext
    rw [List.append_cons]
    by_cases hrest : rest = []
    · rwa [hrest, List.append_nil]
    · exact hnext.trans (ih (before ++ [c]) hrest)

theorem before_placeOf (file : String) (text : List Char) {i j : Nat} (hij : i < j)
    (hj : j ≤ text.length) : (placeOf file text i).Before (placeOf file text j) := by
  have htake : text.take j = text.take i ++ (text.take j).drop i := by
    have hsplit := List.take_append_drop i (text.take j)
    rw [List.take_take, Nat.min_eq_left hij.le] at hsplit
    exact hsplit.symm
  have hne : (text.take j).drop i ≠ [] := by
    intro hnil
    have hlength := congrArg List.length hnil
    simp at hlength
    omega
  unfold placeOf
  rw [htake]
  exact before_placeBehind file _ hne

/-- No character stands before one that comes earlier. -/
theorem not_before_placeOf (file : String) (text : List Char) {i j : Nat} (hij : i ≤ j)
    (hj : j ≤ text.length) : ¬(placeOf file text j).Before (placeOf file text i) := by
  intro hbefore
  rcases Nat.lt_or_eq_of_le hij with hlt | rfl
  · exact (hbefore.trans (before_placeOf file text hlt hj)).ne rfl
  · exact hbefore.ne rfl

/-! ### Tilings -/

/-- The token stands behind `before`, and spells `lexeme` on a single line. -/
structure Spells (file : String) (before lexeme : List Char) (t : Token) : Prop where
  lexeme_eq : t.lexeme = String.ofList lexeme
  ne_nil : lexeme ≠ []
  oneLine : '\n' ∉ lexeme
  start : t.span.start = placeBehind file before
  stop : t.span.stop = placeBehind file (before ++ lexeme.dropLast)

/-- A text behind `before` consists of the tokens in their order, and of layout. -/
inductive Tiles (file : String) : (before text : List Char) → List Token → Prop
  | nil (before : List Char) : Tiles file before [] []
  | layout {before rest : List Char} {c : Char} {ts : List Token} (hc : isLayout c = true)
      (h : Tiles file (before ++ [c]) rest ts) : Tiles file before (c :: rest) ts
  | token {before lexeme rest : List Char} {t : Token} {ts : List Token}
      (ht : t.Spells file before lexeme) (h : Tiles file (before ++ lexeme) rest ts) :
      Tiles file before (lexeme ++ rest) (t :: ts)

/-- A draft that began behind `before`, on whose line it has stayed. -/
structure Draft.Stands (file : String) (before : List Char) (d : Draft) : Prop where
  start : d.start = placeBehind file before
  oneLine : '\n' ∉ d.characters

theorem ne_newline_of_isLayout {c : Char} (h : isLayout c = false) : c ≠ '\n' := by
  rintro rfl
  contradiction

theorem Draft.characters_push (d : Draft) (c : Char) :
    (d.push c).characters = d.characters ++ [c] := by
  simp [Draft.characters, Draft.push]

theorem Draft.Stands.push {file : String} {before : List Char} {d : Draft}
    (h : d.Stands file before) {c : Char} (hc : d.joins c = true) :
    (d.push c).Stands file before := by
  have hne : '\n' ≠ c := by
    rintro rfl
    rw [not_joins_separator d (by decide)] at hc
    contradiction
  refine ⟨h.start, ?_⟩
  rw [Draft.characters_push, List.mem_append, List.mem_singleton, not_or]
  exact ⟨h.oneLine, hne⟩

/-- A finished draft spells its characters, where it stood. -/
theorem Draft.Stands.spells {file : String} {before : List Char} {d : Draft} {t : Token}
    (h : d.Stands file before) (hfinish : d.finish = .ok t) :
    t.Spells file before d.characters := by
  have hdropLast : '\n' ∉ d.characters.dropLast := fun hmem ↦
    h.oneLine (List.dropLast_subset _ hmem)
  rw [Draft.finish_eq] at hfinish
  cases hread : read d.characters with
  | error cause => simp [hread] at hfinish
  | ok k =>
    simp only [hread, Except.ok.injEq] at hfinish
    subst hfinish
    refine ⟨rfl, List.cons_ne_nil _ _, h.oneLine, h.start, ?_⟩
    rw [placeBehind_append file before hdropLast, ← h.start]
    simp [Draft.characters]

/-- The drafts of a text, once they are finished, tile it. A draft in progress is taken as part of
the text that is still to be tiled. -/
theorem tiles_of_mapM_finish {file : String} {text before : List Char} {d : Option Draft}
    {ts : List Token} (hd : ∀ draft ∈ d, draft.Stands file before)
    (h : (drafts (placeBehind file (before ++ d.elim [] Draft.characters)) d text).mapM
      Draft.finish = .ok ts) : Tiles file before (d.elim [] Draft.characters ++ text) ts := by
  induction text generalizing before d ts with
  | nil =>
    cases d with
    | none =>
      cases h
      exact .nil before
    | some draft =>
      obtain ⟨t, others, hfinish, hothers, rfl⟩ := mapM_cons_eq_ok h
      cases hothers
      exact .token ((hd draft rfl).spells hfinish) (.nil _)
  | cons c rest ih =>
    -- Where no draft is in progress, `c` is layout or begins one.
    have hnone : ∀ {before : List Char} {ts : List Token},
        (drafts (placeBehind file before) none (c :: rest)).mapM Draft.finish = .ok ts →
        Tiles file before (c :: rest) ts := by
      intro before ts h
      rw [drafts_none_cons, ← placeBehind_concat, begun] at h
      by_cases hlayout : isLayout c = true
      · rw [if_pos hlayout] at h
        exact .layout hlayout (ih (d := none) (by simp) (by simpa using h))
      · rw [if_neg hlayout] at h
        rw [Bool.not_eq_true] at hlayout
        refine ih (d := some ⟨placeBehind file before, c, []⟩) ?_ h
        rintro _ ⟨⟩
        exact ⟨rfl, by simpa [Draft.characters] using (ne_newline_of_isLayout hlayout).symm⟩
    cases d with
    | none => exact hnone (by simpa using h)
    | some draft =>
      have hdraft := hd draft rfl
      simp only [Option.elim_some] at h ⊢
      by_cases hjoins : draft.joins c = true
      · have hpush : Tiles file before ((draft.push c).characters ++ rest) ts := by
          refine ih (d := some (draft.push c)) ?_ ?_
          · rintro _ ⟨⟩
            exact hdraft.push hjoins
          · rw [drafts_of_joins hjoins, ← placeBehind_concat] at h
            simpa [Draft.characters_push] using h
        rwa [Draft.characters_push, ← List.append_cons] at hpush
      · rw [Bool.not_eq_true] at hjoins
        rw [drafts_of_not_joins hjoins] at h
        obtain ⟨t, others, hfinish, hothers, rfl⟩ := mapM_cons_eq_ok h
        exact .token (hdraft.spells hfinish) (hnone hothers)

/-! ### Tilings, character by character -/

/-- The span reaches from the character number `i` to the character number `j`, and these and the
ones between them spell the token. -/
structure StandsAt (file : String) (text : List Char) (i j : Nat) (t : Token) : Prop where
  le : i ≤ j
  lt : j < text.length
  start : t.span.start = placeOf file text i
  stop : t.span.stop = placeOf file text j
  lexeme : t.lexeme.toList = (text.take (j + 1)).drop i

/-- The place is that of the first character of the span, of the last one, or between them. -/
def Covers (t : Token) (p : Position) : Prop := ¬p.Before t.span.start ∧ ¬t.span.stop.Before p

theorem StandsAt.covers {file : String} {text : List Char} {i j : Nat} {t : Token}
    (h : t.StandsAt file text i j) {k : Nat} (hi : i ≤ k) (hj : k ≤ j) :
    t.Covers (placeOf file text k) := by
  have hlt := h.lt
  unfold Covers
  rw [h.start, h.stop]
  exact ⟨not_before_placeOf file text hi (by omega), not_before_placeOf file text hj hlt.le⟩

theorem Spells.standsAt {file : String} {before lexeme : List Char} {t : Token}
    (h : t.Spells file before lexeme) (rest : List Char) :
    t.StandsAt file (before ++ (lexeme ++ rest)) before.length
      (before.length + lexeme.length - 1) := by
  obtain ⟨hlexeme, hne, -, hstart, hstop⟩ := h
  have hpos := List.length_pos_iff.mpr hne
  refine ⟨by omega, by simp only [List.length_append]; omega, ?_, ?_, ?_⟩
  · rw [hstart, placeOf, List.take_left]
  · have htake : (before ++ (lexeme ++ rest)).take (before.length + lexeme.length - 1) =
        before ++ lexeme.dropLast := by
      rw [Nat.add_sub_assoc hpos, List.take_length_add_append,
        List.take_append_of_le_length (Nat.sub_le _ _), List.dropLast_eq_take]
    rw [hstop, placeOf, htake]
  · have hlength : before.length + lexeme.length - 1 + 1 = before.length + lexeme.length := by
      omega
    rw [hlexeme, String.toList_ofList, hlength, List.take_length_add_append, List.take_left,
      List.drop_left]

theorem Spells.line_eq {file : String} {before lexeme : List Char} {t : Token}
    (h : t.Spells file before lexeme) : t.span.start.line = t.span.stop.line := by
  have hdropLast : '\n' ∉ lexeme.dropLast := fun hmem ↦ h.oneLine (List.dropLast_subset _ hmem)
  rw [h.start, h.stop, placeBehind_append file before hdropLast]
  rfl

namespace Tiles

variable {file : String} {before text : List Char} {ts : List Token}

/-- A token of a tiling stands behind what was read before. -/
theorem exists_standsAt (h : Tiles file before text ts) {t : Token} (ht : t ∈ ts) :
    t.span.start.line = t.span.stop.line ∧
      ∃ i j, before.length ≤ i ∧ t.StandsAt file (before ++ text) i j := by
  induction h with
  | nil => contradiction
  | layout _ _ ih =>
    obtain ⟨hline, i, j, hi, hstands⟩ := ih ht
    rw [← List.append_cons] at hstands
    rw [List.length_append] at hi
    exact ⟨hline, i, j, Nat.le_of_add_right_le hi, hstands⟩
  | token hspells _ ih =>
    rcases List.mem_cons.mp ht with rfl | ht
    · exact ⟨hspells.line_eq, _, _, Nat.le_refl _, hspells.standsAt _⟩
    · obtain ⟨hline, i, j, hi, hstands⟩ := ih ht
      rw [List.append_assoc] at hstands
      rw [List.length_append] at hi
      exact ⟨hline, i, j, Nat.le_of_add_right_le hi, hstands⟩

/-- The tokens of a tiling follow each other. -/
theorem pairwise (h : Tiles file before text ts) :
    ts.Pairwise fun t u ↦ t.span.stop.Before u.span.start := by
  induction h with
  | nil => exact .nil
  | layout _ _ ih => exact ih
  | @token before lexeme rest t ts hspells htiles ih =>
    refine List.pairwise_cons.mpr ⟨fun u hu ↦ ?_, ih⟩
    have hstands := hspells.standsAt rest
    have hpos := List.length_pos_iff.mpr hspells.ne_nil
    obtain ⟨-, i, j, hi, hother⟩ := htiles.exists_standsAt hu
    rw [List.append_assoc] at hother
    rw [List.length_append] at hi
    rw [hstands.stop, hother.start]
    exact before_placeOf file _ (by omega) (hother.le.trans hother.lt.le)

/-- What no token of a tiling covers is layout. -/
theorem isLayout_of_not_covers (h : Tiles file before text ts) {i : Nat} {c : Char}
    (hi : before.length ≤ i) (hc : (before ++ text)[i]? = some c)
    (huncovered : ∀ t ∈ ts, ¬t.Covers (placeOf file (before ++ text) i)) :
    isLayout c = true := by
  induction h with
  | nil before =>
    rw [List.append_nil, List.getElem?_eq_none hi] at hc
    contradiction
  | @layout before rest d ts hd _ ih =>
    rw [List.append_cons] at hc huncovered
    by_cases hhere : i = before.length
    · have hself : (before ++ [d] ++ rest)[i]? = some d := by simp [hhere]
      rw [hself] at hc
      exact Option.some.inj hc ▸ hd
    · refine ih ?_ hc huncovered
      rw [List.length_append, List.length_singleton]
      omega
  | @token before lexeme rest t ts hspells _ ih =>
    obtain ⟨hfirst, hothers⟩ := List.forall_mem_cons.mp huncovered
    by_cases hinside : i < before.length + lexeme.length
    · exact absurd ((hspells.standsAt rest).covers hi (by omega)) hfirst
    · rw [← List.append_assoc] at hc hothers
      refine ih ?_ hc hothers
      rw [List.length_append]
      omega

end Tiles

/-! ### What tokens carry -/

/-- A number token spells the number it carries in decimal digits, a name token carries what it
spells, and every other token nothing. -/
structure CarriesLexeme (t : Token) : Prop where
  int : t.kind = .int → (∀ c ∈ t.lexeme.toList, isDigit c = true) ∧
    ∃ n : Int64, t.literal = some (.int n) ∧ n.toInt = Nat.ofDigitChars 10 t.lexeme.toList 0
  ident : t.kind = .ident → t.literal = some (.ident t.lexeme)
  bare : t.kind ≠ .int → t.kind ≠ .ident → t.literal = none

/-- What starts with a digit is a run of digits. -/
def Draft.IsRun (d : Draft) : Prop := isDigit d.first = true → ∀ c ∈ d.others, isDigit c = true

theorem Draft.IsRun.push {d : Draft} (h : d.IsRun) {c : Char} (hc : d.joins c = true) :
    (d.push c).IsRun := by
  intro hdigit x hx
  change isDigit d.first = true at hdigit
  rcases List.mem_cons.mp hx with rfl | hx
  · simpa [Draft.joins, isNameStart_of_isDigit hdigit, hdigit] using hc
  · exact h hdigit x hx

theorem ofDigitChars_eq_number (digits : List Char) :
    Nat.ofDigitChars 10 digits 0 = Draft.number digits := by
  simp only [Nat.ofDigitChars_eq_foldl, Draft.number, Nat.mul_comm]

theorem Draft.carriesLexeme_of_finish {d : Draft} {t : Token} (hd : d.IsRun)
    (h : d.finish = .ok t) : t.CarriesLexeme := by
  rw [Draft.finish_eq] at h
  cases hread : read d.characters with
  | error cause => simp [hread] at h
  | ok k =>
    obtain ⟨kind, literal⟩ := k
    simp only [hread, Except.ok.injEq] at h
    subst h
    rcases read_cases hread with ⟨rfl, hdigit, hn, rfl⟩ | ⟨rfl, rfl, -⟩ | ⟨-, hint, hident, rfl⟩
    · refine ⟨fun _ ↦ ⟨?_, _, rfl, ?_⟩, by rintro ⟨⟩, fun hne ↦ absurd rfl hne⟩
      · rw [String.toList_ofList, Draft.characters, List.forall_mem_cons]
        exact ⟨hdigit, fun c hc ↦ hd hdigit c (List.mem_reverse.mp hc)⟩
      · rw [String.toList_ofList, ofDigitChars_eq_number, Int64.toInt_ofNat_of_lt hn]
    · exact ⟨by rintro ⟨⟩, fun _ ↦ rfl, fun _ hne ↦ absurd rfl hne⟩
    · exact ⟨fun hkind ↦ absurd hkind hint, fun hkind ↦ absurd hkind hident, fun _ _ ↦ rfl⟩

/-! ### Scans -/

/-- A source that is scanned is tiled by its tokens, and they carry what they spell. -/
theorem tiles_of_scan {file source : String} {tokens : List Token}
    (h : scan file source = .ok tokens) :
    ∃ ts, tokens = ts ++ [.endAt (placeBehind file source.toList)] ∧
      Tiles file [] source.toList ts ∧ ∀ t ∈ ts, t.CarriesLexeme := by
  rw [scan_eq, placeAfter_eq] at h
  cases hts : (drafts ⟨file, 1, 1⟩ none source.toList).mapM Draft.finish with
  | error fault => simp [hts, Except.map] at h
  | ok ts =>
    simp only [hts, Except.map, Except.ok.injEq] at h
    refine ⟨ts, h.symm, tiles_of_mapM_finish (d := none) (by simp) hts, fun t ht ↦ ?_⟩
    have hruns : ∀ d ∈ drafts ⟨file, 1, 1⟩ none source.toList, d.IsRun :=
      forall_mem_drafts (fun _ _ hd hc ↦ hd.push hc) (fun _ _ _ _ _ ↦ List.forall_mem_nil _)
        (by simp)
    obtain ⟨d, hd, hfinish⟩ := exists_of_mem_mapM hts ht
    exact Draft.carriesLexeme_of_finish (hruns d hd) hfinish

/-- Assumes: the source is scanned. Its tokens end with the end mark, the only one, which stands
just behind the last character. Every other token stands on one line, and the characters of its span
are its lexeme. The spans follow each other, and a character in none of them is a space, a tab, a
carriage return or a line end. Number tokens carry the number that they spell in decimal digits,
name tokens their lexeme, and the others nothing. -/
theorem scan_lossless {file source : String} {tokens : List Token}
    (h : scan file source = .ok tokens) :
    ∃ ts, tokens = ts ++ [.endAt (placeBehind file source.toList)] ∧
      (∀ t ∈ ts, t.kind ≠ .eof) ∧
      (∀ t ∈ ts, t.span.start.line = t.span.stop.line ∧
        ∃ i j, t.StandsAt file source.toList i j) ∧
      (ts.Pairwise fun t u ↦ t.span.stop.Before u.span.start) ∧
      (∀ (i : Nat) (c : Char), source.toList[i]? = some c →
        (∀ t ∈ ts, ¬t.Covers (placeOf file source.toList i)) →
        c = ' ' ∨ c = '\t' ∨ c = '\r' ∨ c = '\n') ∧
      ∀ t ∈ ts, t.CarriesLexeme := by
  obtain ⟨ts, htokens, htiles, hcarries⟩ := tiles_of_scan h
  obtain ⟨others, place, hsame, hsound, -⟩ := exists_of_scan h
  obtain rfl : ts = others := (List.append_inj' (htokens.symm.trans hsame) rfl).1
  refine ⟨ts, htokens, fun t ht ↦ (hsound t ht).2, ?_, htiles.pairwise, ?_, hcarries⟩
  · intro t ht
    obtain ⟨hline, i, j, -, hstands⟩ := htiles.exists_standsAt ht
    exact ⟨hline, i, j, hstands⟩
  · intro i c hc huncovered
    have hlayout := htiles.isLayout_of_not_covers (Nat.zero_le i) hc huncovered
    simpa [isLayout, or_assoc] using hlayout

/-- The tokens of two lines, where names, digits and signs touch each other. -/
def twoLines : List Token :=
  [⟨.ident, "a1", some (.ident "a1"), ⟨⟨"p", 1, 1⟩, ⟨"p", 1, 2⟩⟩⟩,
    ⟨.assign, "=", none, ⟨⟨"p", 1, 3⟩, ⟨"p", 1, 3⟩⟩⟩,
    ⟨.int, "007", some (.int 7), ⟨⟨"p", 1, 4⟩, ⟨"p", 1, 6⟩⟩⟩,
    ⟨.minus, "!", none, ⟨⟨"p", 2, 2⟩, ⟨"p", 2, 2⟩⟩⟩,
    ⟨.ident, "x", some (.ident "x"), ⟨⟨"p", 2, 3⟩, ⟨"p", 2, 3⟩⟩⟩]

/-- They are found in their places, and carry what they spell. -/
theorem scan_lossless_lines :
    scan "p" "a1=007\n\t!x" = .ok (twoLines ++ [.endAt ⟨"p", 2, 4⟩]) ∧
      (∀ t ∈ twoLines, ∃ i j, t.StandsAt "p" "a1=007\n\t!x".toList i j) ∧
      ∀ t ∈ twoLines, t.CarriesLexeme := by
  have hscan : scan "p" "a1=007\n\t!x" = .ok (twoLines ++ [.endAt ⟨"p", 2, 4⟩]) := rfl
  obtain ⟨ts, htokens, -, hstands, -, -, hcarries⟩ := scan_lossless hscan
  obtain rfl : twoLines = ts := (List.append_inj' htokens rfl).1
  exact ⟨hscan, fun t ht ↦ (hstands t ht).2, hcarries⟩

end ExprLang.Token
