import ExprLang.Proofs.Settings.Overlay
import ExprLang.Proofs.Yaml.Documents
import ExprLang.Proofs.Yaml.Meanings

/-!
Settings that are written are read back (`ofText_toText`): the document that holds them consists of
lines, and each line sets what it was written for.
-/

set_option autoImplicit false

namespace ExprLang.Settings

/-! ### Lines of settings -/

open Yaml Yaml.Writer

def textLine (column : Nat) (key text : String) : Line :=
  ⟨key, scalar (Style.ofText text.toList) column (column + key.length + 2) text.toList, text,
    Style.ofText text.toList = .plain⟩

def intLine (key : String) (value : Int) : Line :=
  ⟨key, (toString value).toList, toString value, true⟩

def boolLine (key : String) (value : Bool) : Line :=
  ⟨key, (if value then "true" else "false").toList, if value then "true" else "false", true⟩

/-- The lines that are always there. -/
def otherLines (s : Settings) : List Line :=
  [intLine "iteration_limit" s.iterationLimit.toInt,
    intLine "call_depth_limit" s.callDepthLimit.toInt, textLine 0 "log_level" s.logLevel,
    boolLine "banner" s.banner]

/-- An empty name has no line. -/
def topLines (s : Settings) : List Line :=
  if s.name = "" then s.otherLines else textLine 0 "name" s.name :: s.otherLines

def Dialogue.lines (d : Dialogue) : List Line :=
  [textLine 2 "prompt" d.prompt, textLine 2 "continuation" d.continuation,
    textLine 2 "history_file" d.historyFile]

theorem textEntry_eq {text : String} (htext : ∀ c ∈ text.toList, IsPrintable c) (column : Nat)
    (key : String) : textEntry column key text =
      entry column key ((textLine column key text).written ++ ['\n']) := by
  have hending : ending (Style.ofText text.toList) text.toList = ['\n'] := by
    rcases ofText_cases htext with ⟨h, -⟩ | h | h <;> rw [h] <;> rfl
  rw [textEntry, hending]
  rfl

/-- All texts among the settings consist of printable characters of ASCII. -/
def AllPrintable (s : Settings) : Prop :=
  ∀ text ∈ [s.name, s.logLevel, s.dialogue.prompt, s.dialogue.continuation,
    s.dialogue.historyFile], ∀ c ∈ text.toList, IsPrintable c

instance (s : Settings) : Decidable s.AllPrintable :=
  inferInstanceAs (Decidable (∀ text ∈ [_, _, _, _, _], _))

/-- Every setting has a line, an empty name excepted. -/
theorem toText_eq {s : Settings} (hs : s.AllPrintable) :
    s.toText = String.ofList (layoutNested "repl" s.topLines s.dialogue.lines) := by
  simp only [AllPrintable, List.forall_mem_cons] at hs
  obtain ⟨hname, hlevel, hprompt, hcontinuation, hhistory, -⟩ := hs
  rw [toText, Dialogue.lines, layoutNested_eq, textEntry_eq hname, textEntry_eq hlevel,
    textEntry_eq hprompt, textEntry_eq hcontinuation, textEntry_eq hhistory]
  congr 1
  by_cases hempty : s.name = ""
  · rw [topLines, if_pos hempty, if_pos hempty]
    simp [otherLines, textLine, intLine, boolLine, intEntry, boolEntry]
  · rw [topLines, if_neg hempty, if_neg hempty]
    simp [otherLines, textLine, intLine, boolLine, intEntry, boolEntry]

/-! ### What lines set -/

open Overlay

/-- A positive number is written with its digits alone. -/
theorem exists_digits {value : Int64} (hvalue : 0 < value) : ∃ n : Nat, 0 < n ∧
    n < 0x8000000000000000 ∧ value.toInt = n ∧
      toString value.toInt = String.ofList (Nat.toDigits 10 n) := by
  have hpos : 0 < value.toInt := Int64.lt_iff_toInt_lt.mp hvalue
  have hlt : value.toInt < 0x8000000000000000 := Int64.toInt_lt value
  obtain ⟨n, hn⟩ := Int.eq_ofNat_of_zero_le (Int.le_of_lt hpos)
  rw [hn] at hpos hlt ⊢
  exact ⟨n, Int.ofNat_lt.mp hpos, Int.ofNat_lt.mp hlt, rfl, rfl⟩

section Lines

variable {α : Type} {ctx : Context} {set : Context → α → String → Node → Overlay α} {fuel : Nat}

/-- A line with a text sets it, whatever its style. -/
theorem does_textLine {text : String} {column : Nat} (key : String) (put : α → String → α)
    (hinside : ctx.inside = []) (hkey : IsOrdinary key) (htext : ∀ c ∈ text.toList, IsPrintable c)
    (hset : ∀ a node, set ctx a key node = setting a (put a) (.text (fuel + 1) ctx node)) :
    Does set ctx (put · text) (textLine column key text).entry := by
  refine does_ofScalar hkey hset fun _ ↦ comes_text hinside fun hplain ↦ ?_
  have hstyle : Style.ofText text.toList = .plain := of_decide_eq_true hplain
  have hreads : Style.readsAsText text.toList = true := by
    rcases ofText_cases htext with ⟨-, hreads, -⟩ | h | h
    · exact hreads
    · rw [h] at hstyle
      contradiction
    · rw [h] at hstyle
      contradiction
  rw [Style.readsAsText, String.ofList_toList, Bool.and_eq_true] at hreads
  exact of_decide_eq_true hreads.1

/-- A line with a positive integer sets it. -/
theorem does_intLine {value : Int64} (key : String) (put : α → Int64 → α)
    (hinside : ctx.inside = []) (hkey : IsOrdinary key) (hvalue : 0 < value)
    (hset : ∀ a node, set ctx a key node = setting a (put a) (.int (fuel + 1) ctx node)) :
    Does set ctx (put · value) (intLine key value.toInt).entry := by
  obtain ⟨n, hpos, hlt, hn, htext⟩ := exists_digits hvalue
  have hmeaning : Meaning.ofScalar (toString value.toInt) = .int value.toInt := by
    rw [htext, hn]
    exact Meaning.ofScalar_toDigits hpos hlt
  have hint : (Meaning.int value.toInt).toInt64? = some value := by
    rw [Meaning.toInt64?, if_pos (by omega), Int64.ofInt_toInt]
  exact does_ofScalar hkey hset fun _ ↦ comes_visitScalar hinside hmeaning hint

theorem does_boolLine {value : Bool} (key : String) (put : α → Bool → α)
    (hinside : ctx.inside = []) (hkey : IsOrdinary key)
    (hset : ∀ a node, set ctx a key node = setting a (put a) (.bool (fuel + 1) ctx node)) :
    Does set ctx (put · value) (boolLine key value).entry := by
  have hmeaning : Meaning.ofScalar (if value then "true" else "false") = .bool value := by
    cases value <;> decide
  exact does_ofScalar hkey hset fun _ ↦ comes_visitScalar hinside hmeaning rfl

end Lines

/-! ### Whether lines fit -/

theorem fits_textLine {key text : String} (hkey : IsKey key.toList)
    (htext : ∀ c ∈ text.toList, IsPrintable c) (column : Nat) :
    (textLine column key text).Fits column := by
  have hwrites := writes_scalar htext column (column + key.length + 2)
  rw [String.ofList_toList] at hwrites
  exact ⟨hkey, hwrites⟩

theorem fits_intLine {key : String} {value : Int64} (hkey : IsKey key.toList)
    (hvalue : 0 < value) (column : Nat) : (intLine key value.toInt).Fits column := by
  obtain ⟨n, -, -, -, htext⟩ := exists_digits hvalue
  have hwrites : Writes column (Nat.toDigits 10 n) (String.ofList (Nat.toDigits 10 n)) true :=
    writes_digits column Nat.toDigits_ne_nil fun _ ↦ Meaning.isDigit_of_mem_toDigits
  refine ⟨hkey, ?_⟩
  show Writes column (toString value.toInt).toList (toString value.toInt) true
  rw [htext, String.toList_ofList]
  exact hwrites

theorem fits_boolLine {key : String} (hkey : IsKey key.toList) (value : Bool) (column : Nat) :
    (boolLine key value).Fits column :=
  ⟨hkey, writes_bool column value⟩

theorem fits_topLines {s : Settings} (hs : s.AllPrintable) (hiterations : 0 < s.iterationLimit)
    (hdepth : 0 < s.callDepthLimit) : ∀ l ∈ s.topLines, l.Fits 0 := by
  simp only [AllPrintable, List.forall_mem_cons] at hs
  obtain ⟨hname, hlevel, -⟩ := hs
  have hothers : ∀ l ∈ s.otherLines, l.Fits 0 := by
    simp only [otherLines, List.forall_mem_cons]
    exact ⟨fits_intLine (by decide) hiterations 0, fits_intLine (by decide) hdepth 0,
      fits_textLine (by decide) hlevel 0, fits_boolLine (by decide) s.banner 0, nofun⟩
  rw [topLines]
  split_ifs
  · exact hothers
  · exact List.forall_mem_cons.mpr ⟨fits_textLine (by decide) hname 0, hothers⟩

theorem fits_lines {s : Settings} (hs : s.AllPrintable) : ∀ l ∈ s.dialogue.lines, l.Fits 2 := by
  simp only [AllPrintable, List.forall_mem_cons] at hs
  obtain ⟨-, -, hprompt, hcontinuation, hhistory, -⟩ := hs
  simp only [Dialogue.lines, List.forall_mem_cons]
  exact ⟨fits_textLine (by decide) hprompt 2, fits_textLine (by decide) hcontinuation 2,
    fits_textLine (by decide) hhistory 2, nofun⟩

/-! ### The walk -/

/-- What the lines of the dialogue do to one. -/
def Dialogue.effects (d : Dialogue) : List (Dialogue → Dialogue) :=
  [({ · with prompt := d.prompt }), ({ · with continuation := d.continuation }),
    ({ · with historyFile := d.historyFile })]

/-- No setting of the dialogue is left out. -/
theorem Dialogue.foldl_effects (d base : Dialogue) :
    d.effects.foldl (fun a effect ↦ effect a) base = d := rfl

def otherEffects (s : Settings) : List (Settings → Settings) :=
  [({ · with iterationLimit := s.iterationLimit }),
    ({ · with callDepthLimit := s.callDepthLimit }), ({ · with logLevel := s.logLevel }),
    ({ · with banner := s.banner }), ({ · with dialogue := s.dialogue })]

def effects (s : Settings) : List (Settings → Settings) :=
  if s.name = "" then s.otherEffects else ({ · with name := s.name }) :: s.otherEffects

/-- The name is the only setting that can be left out, and then it is empty as it is anyway. -/
theorem foldl_effects (s : Settings) :
    s.effects.foldl (fun a effect ↦ effect a) standard = s := by
  by_cases hname : s.name = ""
  · rw [effects, if_pos hname]
    show (⟨"", s.iterationLimit, s.callDepthLimit, s.logLevel, s.banner, s.dialogue⟩ : Settings) = s
    rw [← hname]
  · rw [effects, if_neg hname]
    rfl

section Walk

variable {ctx : Context} {pairs : List (Node × Node)}

theorem comes_dialogue {s : Settings} (hs : s.AllPrintable) (hinside : ctx.inside = [])
    (hpairs : List.Forall₂ Read.Entry.Matches (s.dialogue.lines.map Line.entry) pairs)
    (base : Dialogue) (fuel line : Nat) :
    Comes (visit (Overlay.mapping "config.REPL" Dialogue.empty (Dialogue.setEntry (fuel + 2))
      (fuel + 2) base) (fuel + 2) ctx (.mapping pairs line)) s.dialogue := by
  simp only [AllPrintable, List.forall_mem_cons] at hs
  obtain ⟨-, -, hprompt, hcontinuation, hhistory, -⟩ := hs
  have hdoes : List.Forall₂ (Does (Dialogue.setEntry (fuel + 2)) ctx) s.dialogue.effects
      (s.dialogue.lines.map Line.entry) :=
    .cons (does_textLine "prompt" (fun (d : Dialogue) t ↦ { d with prompt := t }) hinside
      (by decide) hprompt fun _ _ ↦ rfl) <|
    .cons (does_textLine "continuation" (fun (d : Dialogue) t ↦ { d with continuation := t })
      hinside (by decide) hcontinuation fun _ _ ↦ rfl) <|
    .cons (does_textLine "history_file" (fun (d : Dialogue) t ↦ { d with historyFile := t })
      hinside (by decide) hhistory fun _ _ ↦ rfl) .nil
  have hcomes := comes_visitMapping hinside "config.REPL" .empty base (sets_of_matches hdoes hpairs)
    fuel line
  rw [Dialogue.foldl_effects] at hcomes
  exact hcomes

theorem does_dialogue {s : Settings} (hs : s.AllPrintable) (hinside : ctx.inside = [])
    (fuel : Nat) : Does (setEntry (fuel + 2)) ctx ({ · with dialogue := s.dialogue })
      (.ofMapping "repl" (s.dialogue.lines.map Line.entry)) := by
  rintro pair ⟨⟨line, hfirst⟩, more, hmore, line', hsecond⟩
  refine ⟨"repl", line, hfirst, by decide, fun a ↦ ?_⟩
  rw [hsecond]
  exact (comes_dialogue hs hinside hmore a.dialogue fuel line').bind (comes_pure _)

theorem does_settings {s : Settings} (hs : s.AllPrintable) (hiterations : 0 < s.iterationLimit)
    (hdepth : 0 < s.callDepthLimit) (hinside : ctx.inside = []) (fuel : Nat) :
    List.Forall₂ (Does (setEntry (fuel + 2)) ctx) s.effects
      (nestedEntries "repl" s.topLines s.dialogue.lines) := by
  have hdialogue := does_dialogue hs hinside fuel
  simp only [AllPrintable, List.forall_mem_cons] at hs
  obtain ⟨hname, hlevel, -⟩ := hs
  have hothers : List.Forall₂ (Does (setEntry (fuel + 2)) ctx) s.otherEffects
      (nestedEntries "repl" s.otherLines s.dialogue.lines) :=
    .cons (does_intLine "iteration_limit" (fun (s : Settings) n ↦ { s with iterationLimit := n })
      hinside (by decide) hiterations fun _ _ ↦ rfl) <|
    .cons (does_intLine "call_depth_limit" (fun (s : Settings) n ↦ { s with callDepthLimit := n })
      hinside (by decide) hdepth fun _ _ ↦ rfl) <|
    .cons (does_textLine "log_level" (fun (s : Settings) t ↦ { s with logLevel := t }) hinside
      (by decide) hlevel fun _ _ ↦ rfl) <|
    .cons (does_boolLine "banner" (fun (s : Settings) b ↦ { s with banner := b }) hinside
      (by decide) fun _ _ ↦ rfl) <| .cons hdialogue .nil
  by_cases hempty : s.name = ""
  · rw [effects, topLines, if_pos hempty, if_pos hempty]
    exact hothers
  · rw [effects, topLines, if_neg hempty, if_neg hempty]
    exact .cons (does_textLine "name" (fun (s : Settings) t ↦ { s with name := t }) hinside
      (by decide) hname fun _ _ ↦ rfl) hothers

theorem comes_settings {s : Settings} (hs : s.AllPrintable) (hiterations : 0 < s.iterationLimit)
    (hdepth : 0 < s.callDepthLimit) (hinside : ctx.inside = [])
    (hpairs : List.Forall₂ Read.Entry.Matches
      (nestedEntries "repl" s.topLines s.dialogue.lines) pairs) (fuel line : Nat) :
    Comes (visit (Overlay.mapping "config.Config" Settings.empty (setEntry (fuel + 2)) (fuel + 2)
      standard) (fuel + 2) ctx (.mapping pairs line)) s := by
  have hdoes := does_settings hs hiterations hdepth hinside fuel
  have hcomes := comes_visitMapping hinside "config.Config" .empty standard
    (sets_of_matches hdoes hpairs) fuel line
  rw [foldl_effects] at hcomes
  exact hcomes

end Walk

theorem overlayDocument_eq {s : Settings} (hs : s.AllPrintable) (hiterations : 0 < s.iterationLimit)
    (hdepth : 0 < s.callDepthLimit) {pairs : List (Node × Node)}
    (hpairs : List.Forall₂ Read.Entry.Matches
      (nestedEntries "repl" s.topLines s.dialogue.lines) pairs) (fuel line : Nat) :
    standard.overlayDocument (fuel + 2) ⟨.mapping pairs line, []⟩ = .ok s := by
  have hinside : (⟨⟨.mapping pairs line, []⟩, []⟩ : Context).inside = [] := rfl
  obtain ⟨p, hwalk, hp⟩ :=
    comes_settings hs hiterations hdepth hinside hpairs fuel line ⟨0, 0, []⟩ ⟨rfl, rfl⟩
  unfold overlayDocument
  simp only [hwalk, hp.mismatches]
  rfl

theorem exists_read_toText {s : Settings} (hs : s.AllPrintable) (hiterations : 0 < s.iterationLimit)
    (hdepth : 0 < s.callDepthLimit) : ∃ pairs line,
      List.Forall₂ Read.Entry.Matches (nestedEntries "repl" s.topLines s.dialogue.lines) pairs ∧
        Yaml.read (Text.Utf8.encode s.toText) = some (some ⟨.mapping pairs line, []⟩) := by
  have hfits := fits_topLines hs hiterations hdepth
  have hne : s.topLines ≠ [] := by
    rw [topLines]
    split_ifs <;> exact List.cons_ne_nil _ _
  rw [toText_eq hs]
  obtain ⟨l, ls, htop⟩ := List.exists_cons_of_ne_nil hne
  rw [htop] at hfits ⊢
  exact Yaml.exists_read (by decide) hfits (fits_lines hs)

/-- Valid settings, all texts of which are printable, are read back as they were written. -/
theorem ofText_toText (s : Settings) (hvalid : s.validate = .ok ()) (hs : s.AllPrintable) :
    ofText s.toText = .ok s := by
  have hiterations : 0 < s.iterationLimit := by
    by_contra hle
    rw [validate, if_pos (Int64.not_lt.mp hle)] at hvalid
    contradiction
  have hdepth : 0 < s.callDepthLimit := by
    by_contra hle
    rw [validate, if_neg (Int64.not_le.mpr hiterations), if_pos (Int64.not_lt.mp hle)] at hvalid
    contradiction
  obtain ⟨pairs, line, hpairs, hread⟩ := exists_read_toText hs hiterations hdepth
  unfold ofText ofBytes
  generalize Text.Utf8.encode s.toText = bytes at hread ⊢
  -- a mapping takes one step, and the visit of a key in it one more
  obtain ⟨fuel, hfuel⟩ : ∃ fuel, (bytes.length + 2) * (bytes.length + 2) = fuel + 2 :=
    ⟨(bytes.length + 2) * (bytes.length + 1) + bytes.length, by lia⟩
  simp only [hread, hfuel, overlayDocument_eq hs hiterations hdepth hpairs]
  show (s.validate >>= fun _ ↦ pure s) = _
  rw [hvalid]
  rfl

/-- Texts that look like something else are quoted, and read back all the same. -/
theorem ofText_toText_lookalikes :
    ofText (toText ⟨"- it's: #\"x\"", 1, 9223372036854775807, " debug", false,
        ⟨"1e3", "", "null"⟩⟩) =
      .ok ⟨"- it's: #\"x\"", 1, 9223372036854775807, " debug", false, ⟨"1e3", "", "null"⟩⟩ := by
  have hlevel : Log.Level.ofText? " debug" = some .debug := by
    have htrim : Text.trim " debug" = "debug" := by decide
    have hupper : Text.upper "debug" = "DEBUG" := by
      rw [Text.upper, ← String.toList_inj, String.toList_map]
      decide
    rw [Log.Level.ofText?, htrim, hupper]
    rfl
  refine ofText_toText _ ?_ (by decide)
  rw [validate, if_neg (by decide), if_neg (by decide), readLevel, hlevel]
  rfl

end ExprLang.Settings
