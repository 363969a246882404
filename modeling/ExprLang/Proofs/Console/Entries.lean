import ExprLang.Console.Conversation
import ExprLang.Proofs.Expr.Completion
import ExprLang.Proofs.Text.Utf8
import Mathlib.Data.List.DropRight

/-!
How lines become entries. A draft takes in line after line until its text is complete (`gather`).
A text that needs more is not blank (`needsMore_of_allBlank`). So a draft that has lines has bytes,
and a line end goes between any two of its lines (`Pending.extend_eq`); nor does a draft turn into a
command when it grows (`isCommand_append`). The entries are therefore the lines in order, cut where
their text is first complete, and what is left at the end still needs more (`gather_lines`).
-/

set_option autoImplicit false

namespace ExprLang

/-! ### Blank texts -/

theorem Text.isVisible_of_isBlank {c : Char} (h : isBlank c = true) :
    Token.isVisible c = false := by
  simp only [isBlank, Bool.or_eq_true, Bool.and_eq_true, decide_eq_true_eq, beq_iff_eq] at h
  rw [Token.isVisible, Bool.and_eq_false_iff, decide_eq_false_iff_not, decide_eq_false_iff_not]
  omega

/-- No token starts with a blank. -/
theorem Token.finish_of_isBlank {d : Token.Draft} (h : Text.isBlank d.first = true) (t : Token) :
    d.finish ≠ .ok t := by
  intro hfinish
  rw [Draft.finish_eq] at hfinish
  cases hread : Token.read d.characters with
  | error cause =>
    rw [hread] at hfinish
    contradiction
  | ok meaning =>
    have hvisible : isVisible d.first = true := isVisible_of_read hread
    rw [Text.isVisible_of_isBlank h] at hvisible
    contradiction

/-- A blank text spells no token, whether it is layout or not. -/
theorem Token.scan_of_allBlank {file source : String} (h : Text.allBlank source = true)
    {tokens : List Token} (hscan : Token.scan file source = .ok tokens) :
    ∃ place, tokens = [.endAt place] := by
  have hblank : ∀ d ∈ Token.drafts ⟨file, 1, 1⟩ none source.toList,
      Text.isBlank d.first = true :=
    Token.forall_mem_drafts (fun _ _ hd _ ↦ hd)
      (fun c hc _ _ ↦ List.all_eq_true.mp h c hc) (by simp)
  rw [Token.scan_eq] at hscan
  cases hdrafts : Token.drafts ⟨file, 1, 1⟩ none source.toList with
  | nil =>
    rw [hdrafts] at hscan
    cases hscan
    exact ⟨_, rfl⟩
  | cons d ds =>
    rw [hdrafts] at hscan hblank
    cases hfinish : (d :: ds).mapM Token.Draft.finish with
    | error fault =>
      rw [hfinish] at hscan
      contradiction
    | ok ts =>
      obtain ⟨t, -, ht, -⟩ := Token.mapM_cons_eq_ok hfinish
      exact absurd ht (Token.finish_of_isBlank (hblank d List.mem_cons_self) t)

namespace Console

/-- A blank text is a program without expressions, or no program at all. -/
theorem needsMore_of_allBlank {text : String} (h : Text.allBlank text = true) :
    needsMore text = false := by
  rw [needsMore, Reading.wantsMore, Parser.ofSource_program, Parser.parse]
  cases hscan : Token.scan sourceName text with
  | error fault =>
    obtain ⟨cause, place, rfl⟩ := Token.exists_lexical_of_scan hscan
    rfl
  | ok tokens =>
    obtain ⟨place, rfl⟩ := Token.scan_of_allBlank h hscan
    rfl

/-! ### Commands -/

/-- Cutting blanks from the end does not touch the first character that is not blank. -/
theorem head?_trim (text : String) :
    (Text.trim text).toList.head? = (text.toList.dropWhile Text.isBlank).head? := by
  rw [Text.trim, String.toList_ofList]
  change (List.rdropWhile Text.isBlank _).head? = _
  cases hrest : text.toList.dropWhile Text.isBlank with
  | nil => rfl
  | cons c others =>
    have hc : Text.isBlank c = false := by
      have hnot := List.head?_dropWhile_not Text.isBlank text.toList
      simpa [hrest] using hnot
    have hne : List.rdropWhile Text.isBlank (c :: others) ≠ [] := by
      intro hnil
      have hall := List.rdropWhile_eq_nil_iff.mp hnil c List.mem_cons_self
      rw [hc] at hall
      contradiction
    obtain ⟨more, hmore⟩ := List.rdropWhile_prefix Text.isBlank (c :: others)
    obtain ⟨first, rest, hfirst⟩ := List.exists_cons_of_ne_nil hne
    rw [hfirst] at hmore ⊢
    obtain ⟨rfl, -⟩ := List.cons.inj hmore
    rfl

/-- What follows a text that is not blank does not make it a command. -/
theorem isCommand_append {text longer : String} {more : List Char}
    (h : Text.allBlank text = false) (hlonger : longer.toList = text.toList ++ more) :
    isCommand longer = isCommand text := by
  have hne : text.toList.dropWhile Text.isBlank ≠ [] := by
    intro hnil
    rw [Text.allBlank, List.all_eq_true.mpr (List.dropWhile_eq_nil_iff.mp hnil)] at h
    contradiction
  obtain ⟨c, rest, hrest⟩ := List.exists_cons_of_ne_nil hne
  have hhead : (longer.toList.dropWhile Text.isBlank).head? =
      (text.toList.dropWhile Text.isBlank).head? := by
    rw [hlonger, List.dropWhile_append, hrest]
    rfl
  rw [isCommand, isCommand, head?_trim, head?_trim, hhead]

theorem isComplete_of_allBlank {text : String} (h : Text.allBlank text = true) :
    isComplete text = true := by
  rw [isComplete, needsMore_of_allBlank h, Bool.not_false, Bool.or_true]

theorem isComplete_eq_false_iff {text : String} :
    isComplete text = false ↔ isCommand text = false ∧ needsMore text = true := by
  rw [isComplete, Bool.or_eq_false_iff, Bool.not_eq_false']

/-! ### Drafts -/

/-- The entries that lines make behind a draft, one after the other, and the draft that is left when
there are no more lines. -/
def gather (draft : List UInt8) : List (List UInt8) → List (List UInt8) × List UInt8
  | [] => ([], draft)
  | line :: rest =>
    let entry := extend draft line
    if isComplete (Text.Utf8.decode entry) then
      let (entries, left) := gather [] rest
      (entry :: entries, left)
    else gather entry rest

theorem gather_of_isComplete {draft line : List UInt8}
    (h : isComplete (Text.Utf8.decode (extend draft line)) = true) (rest : List (List UInt8)) :
    gather draft (line :: rest) =
      (extend draft line :: (gather [] rest).1, (gather [] rest).2) := by
  rw [gather]
  exact if_pos h

theorem gather_of_not_isComplete {draft line : List UInt8}
    (h : isComplete (Text.Utf8.decode (extend draft line)) = false) (rest : List (List UInt8)) :
    gather draft (line :: rest) = gather (extend draft line) rest := by
  rw [gather]
  exact if_neg (Bool.eq_false_iff.mp h)

/-- The text of some lines. -/
def textOf (lines : List (List UInt8)) : String := Text.Utf8.decode ([10].intercalate lines)

/-- A draft of lines, of which no number from the first on made an entry. -/
structure Pending (lines : List (List UInt8)) (draft : List UInt8) : Prop where
  eq : draft = [10].intercalate lines
  isOpen : ∀ k, 0 < k → k ≤ lines.length → isComplete (textOf (lines.take k)) = false

/-- Lines that make an entry as soon as the last of them is there. -/
structure IsEntry (lines : List (List UInt8)) : Prop where
  ne_nil : lines ≠ []
  kind : (∃ line, lines = [line] ∧ isCommand (textOf lines) = true) ∨
    (needsMore (textOf lines) = false ∧
      ∀ k, 0 < k → k < lines.length → needsMore (textOf (lines.take k)) = true)

theorem extend_of_ne_nil {draft : List UInt8} (h : draft ≠ []) (line : List UInt8) :
    extend draft line = draft ++ 10 :: line :=
  if_neg (by simpa using h)

theorem intercalate_concat {α : Type} (separator last : List α) {ls : List (List α)}
    (h : ls ≠ []) : separator.intercalate (ls ++ [last]) =
      separator.intercalate ls ++ (separator ++ last) := by
  induction ls with
  | nil => contradiction
  | cons first rest ih =>
    cases rest with
    | nil => simp [List.intercalate]
    | cons second rest =>
      have hrest := ih (List.cons_ne_nil second rest)
      simp only [List.cons_append, List.intercalate_cons_cons, List.append_assoc] at hrest ⊢
      rw [hrest]

namespace Pending

variable {lines : List (List UInt8)} {draft : List UInt8}

theorem nil : Pending [] [] := ⟨rfl, fun _ hpos hle ↦ absurd hle (Nat.not_le.mpr hpos)⟩

theorem isComplete_draft (h : Pending lines draft) (hlines : lines ≠ []) :
    isComplete (Text.Utf8.decode draft) = false := by
  have hall := h.isOpen lines.length (List.length_pos_iff.mpr hlines) (Nat.le_refl _)
  rwa [List.take_length, textOf, ← h.eq] at hall

/-- A draft that has lines is not blank. -/
theorem allBlank_draft (h : Pending lines draft) (hlines : lines ≠ []) :
    Text.allBlank (Text.Utf8.decode draft) = false := by
  by_contra hblank
  have hcomplete := isComplete_of_allBlank (eq_true_of_ne_false hblank)
  rw [h.isComplete_draft hlines] at hcomplete
  contradiction

theorem draft_ne_nil (h : Pending lines draft) (hlines : lines ≠ []) : draft ≠ [] := by
  rintro rfl
  have hblank := h.allBlank_draft hlines
  rw [Text.Utf8.decode, Text.Utf8.decodeOnto] at hblank
  contradiction

/-- A line end goes between any two lines. -/
theorem extend_eq (h : Pending lines draft) (line : List UInt8) :
    extend draft line = [10].intercalate (lines ++ [line]) := by
  by_cases hlines : lines = []
  · subst hlines
    rw [h.eq]
    simp [extend]
  · rw [extend_of_ne_nil (h.draft_ne_nil hlines), intercalate_concat _ _ hlines, ← h.eq]
    rfl

/-- A draft that stays incomplete holds one more line. -/
theorem grow (h : Pending lines draft) {line : List UInt8}
    (hopen : isComplete (Text.Utf8.decode (extend draft line)) = false) :
    Pending (lines ++ [line]) (extend draft line) := by
  refine ⟨h.extend_eq line, fun k hpos hle ↦ ?_⟩
  by_cases hk : k ≤ lines.length
  · rw [List.take_append_of_le_length hk]
    exact h.isOpen k hpos hk
  · rw [List.take_of_length_le (by simp; omega), textOf, ← h.extend_eq]
    exact hopen

/-- A draft that becomes complete is an entry. -/
theorem isEntry (h : Pending lines draft) {line : List UInt8}
    (hcomplete : isComplete (Text.Utf8.decode (extend draft line)) = true) :
    IsEntry (lines ++ [line]) := by
  have htext : textOf (lines ++ [line]) = Text.Utf8.decode (extend draft line) := by
    rw [textOf, h.extend_eq]
  refine ⟨by simp, ?_⟩
  rw [htext]
  by_cases hlines : lines = []
  · subst hlines
    rw [isComplete, Bool.or_eq_true, Bool.not_eq_true'] at hcomplete
    refine hcomplete.imp (fun hcommand ↦ ⟨line, rfl, hcommand⟩) fun hmore ↦ ⟨hmore, ?_⟩
    intro k hpos hlt
    exact absurd hpos (by simpa using hlt)
  · -- The draft was no command, and has become none.
    have hdraft := isComplete_eq_false_iff.mp (h.isComplete_draft hlines)
    have hcommand : isCommand (Text.Utf8.decode (extend draft line)) = false := by
      rw [extend_of_ne_nil (h.draft_ne_nil hlines), ← hdraft.1]
      exact isCommand_append (h.allBlank_draft hlines) (Text.Utf8.toList_decode_append draft line)
    rw [isComplete, hcommand, Bool.false_or, Bool.not_eq_true'] at hcomplete
    refine .inr ⟨hcomplete, fun k hpos hlt ↦ ?_⟩
    rw [List.length_append, List.length_singleton] at hlt
    rw [List.take_append_of_le_length (Nat.le_of_lt_succ hlt)]
    exact (isComplete_eq_false_iff.mp (h.isOpen k hpos (Nat.le_of_lt_succ hlt))).2

end Pending

/-- Lines are grouped in order, each group makes an entry, and the last lines stay in the draft. -/
theorem exists_groups {before : List (List UInt8)} {draft : List UInt8}
    (h : Pending before draft) (lines : List (List UInt8)) :
    ∃ (groups : List (List (List UInt8))) (left : List (List UInt8)),
      before ++ lines = groups.flatten ++ left ∧
      (gather draft lines).1 = groups.map [10].intercalate ∧ (∀ group ∈ groups, IsEntry group) ∧
      Pending left (gather draft lines).2 := by
  -- The lines that the draft holds are those of the group that has been begun.
  induction lines generalizing before draft with
  | nil => exact ⟨[], before, by simp, rfl, nofun, h⟩
  | cons line rest ih =>
    by_cases hcomplete : isComplete (Text.Utf8.decode (extend draft line)) = true
    · obtain ⟨groups, left, hlines, hentries, hgroups, hleft⟩ := ih .nil
      rw [gather_of_isComplete hcomplete]
      refine ⟨(before ++ [line]) :: groups, left, ?_, ?_, ?_, hleft⟩
      · rw [List.flatten_cons, List.append_assoc, ← hlines]
        simp
      · rw [List.map_cons, ← hentries, ← h.extend_eq]
      · exact List.forall_mem_cons.mpr ⟨h.isEntry hcomplete, hgroups⟩
    · have hopen := Bool.eq_false_iff.mpr hcomplete
      obtain ⟨groups, left, hlines, hentries, hgroups, hleft⟩ := ih (h.grow hopen)
      rw [gather_of_not_isComplete hopen]
      refine ⟨groups, left, ?_, hentries, hgroups, hleft⟩
      rw [← hlines, List.append_assoc]
      rfl

/-! ### Conversations -/

namespace Conversation

/-- Takes in lines one after the other, whatever the answers. -/
def hearAll (fuel : Nat) (c : Conversation) (lines : List (List UInt8)) : Option Conversation :=
  lines.foldlM (fun c line ↦ (c.hear fuel line).map Prod.snd) c

/-- The entries that are answered: all that are not blank. -/
def answered (entries : List (List UInt8)) : List (List UInt8) :=
  entries.filter fun entry ↦ !Text.allBlank (Text.Utf8.decode entry)

/-- A line makes the draft longer, or makes an entry of it. -/
theorem hear_cases {fuel : Nat} {c next : Conversation} {line : List UInt8} {answer : Reply}
    (h : c.hear fuel line = some (answer, next)) :
    (isComplete (Text.Utf8.decode (extend c.draft line)) = false ∧
      next.draft = extend c.draft line ∧ next.history = c.history) ∨
    (isComplete (Text.Utf8.decode (extend c.draft line)) = true ∧ next.draft = [] ∧
      next.history = (answered [extend c.draft line]).foldl History.add c.history) := by
  simp only [hear] at h
  by_cases hcomplete : isComplete (Text.Utf8.decode (extend c.draft line)) = true
  · refine .inr ⟨hcomplete, ?_⟩
    by_cases hblank : Text.allBlank (Text.Utf8.decode (extend c.draft line)) = true
    · simp only [hcomplete, hblank, Bool.not_true, Bool.false_eq_true, if_false, if_true] at h
      cases h
      simp [answered, hblank]
    · simp only [hcomplete, hblank, Bool.not_true, Bool.false_eq_true, if_false] at h
      obtain ⟨outcome, -, heq⟩ := Option.map_eq_some_iff.mp h
      cases heq
      simp [answered, hblank]
  · refine .inl ⟨Bool.eq_false_iff.mpr hcomplete, ?_⟩
    simp only [hcomplete, Bool.not_false, if_true] at h
    cases h
    exact ⟨rfl, rfl⟩

/-- A conversation keeps the lines that make no entry in its draft, and the entries that it answers
in its history. -/
theorem gather_of_hearAll {fuel : Nat} {c last : Conversation} {lines : List (List UInt8)}
    (h : c.hearAll fuel lines = some last) :
    last.draft = (gather c.draft lines).2 ∧
      last.history = (answered (gather c.draft lines).1).foldl History.add c.history := by
  induction lines generalizing c with
  | nil =>
    cases h
    exact ⟨rfl, rfl⟩
  | cons line rest ih =>
    rw [hearAll, List.foldlM_cons] at h
    obtain ⟨next, hnext, hrest⟩ := Option.bind_eq_some_iff.mp h
    obtain ⟨⟨answer, _⟩, hhear, rfl⟩ := Option.map_eq_some_iff.mp hnext
    obtain ⟨hdraft, hhistory⟩ := ih hrest
    obtain ⟨hopen, hlonger, hsame⟩ | ⟨hcomplete, hempty, hadded⟩ := hear_cases hhear
    · rw [gather_of_not_isComplete hopen, ← hlonger, ← hsame]
      exact ⟨hdraft, hhistory⟩
    · rw [hempty] at hdraft hhistory
      rw [gather_of_isComplete hcomplete]
      refine ⟨hdraft, ?_⟩
      rw [hhistory, hadded, ← List.foldl_append, answered, answered, ← List.filter_append]
      rfl

end Conversation

/-- The lines that a draft holds; one without bytes holds none. -/
def draftLines (draft : List UInt8) : List (List UInt8) :=
  if draft.isEmpty then [] else draft.splitOn 10

theorem Pending.draftLines_eq {lines : List (List UInt8)} {draft : List UInt8}
    (h : Pending lines draft) (hlines : ∀ line ∈ lines, 10 ∉ line) : draftLines draft = lines := by
  by_cases hnil : lines = []
  · subst hnil
    rw [h.eq]
    rfl
  · rw [draftLines, if_neg (by simpa using h.draft_ne_nil hnil), h.eq]
    exact List.splitOn_intercalate 10 hlines hnil

/-- An entry in terms of its bytes. -/
theorem IsEntry.cases {group : List (List UInt8)} (h : IsEntry group)
    (hlines : ∀ line ∈ group, 10 ∉ line) {entry : List UInt8}
    (hentry : [10].intercalate group = entry) : entry.splitOn 10 = group ∧
      ((10 ∉ entry ∧ isCommand (Text.Utf8.decode entry) = true) ∨
      (needsMore (Text.Utf8.decode entry) = false ∧
        ∀ k, 0 < k → k < (entry.splitOn 10).length →
          needsMore (textOf ((entry.splitOn 10).take k)) = true)) := by
  have hsplit : entry.splitOn 10 = group := by
    rw [← hentry]
    exact List.splitOn_intercalate 10 hlines h.ne_nil
  rw [hsplit, ← hentry]
  refine ⟨rfl, h.kind.imp ?_ id⟩
  rintro ⟨line, rfl, hcommand⟩
  rw [List.intercalate_singleton]
  exact ⟨hlines line List.mem_cons_self, by simpa [textOf] using hcommand⟩

/-- Assumes: no line holds a line end. The entries, cut at their line ends, and then the draft that
is left, are the lines in their order; the draft still needs more, unless it is empty. Each entry is
a command on one line, or a text that needs no more while each smaller number of its lines, from the
first on, does. A conversation that takes in the lines keeps exactly the entries that are not blank
in its history, and is left with that draft. -/
theorem gather_lines {lines : List (List UInt8)} (hlines : ∀ line ∈ lines, 10 ∉ line) :
    (gather [] lines).1.flatMap (List.splitOn 10) ++ draftLines (gather [] lines).2 = lines ∧
    ((gather [] lines).2 ≠ [] → needsMore (Text.Utf8.decode (gather [] lines).2) = true) ∧
    (∀ entry ∈ (gather [] lines).1,
      (10 ∉ entry ∧ isCommand (Text.Utf8.decode entry) = true) ∨
      (needsMore (Text.Utf8.decode entry) = false ∧
        ∀ k, 0 < k → k < (entry.splitOn 10).length →
          needsMore (textOf ((entry.splitOn 10).take k)) = true)) ∧
    ∀ fuel interpreter history last,
      Conversation.hearAll fuel ⟨interpreter, history, []⟩ lines = some last →
        last.draft = (gather [] lines).2 ∧
        last.history =
          (Conversation.answered (gather [] lines).1).foldl History.add history := by
  obtain ⟨groups, left, hparts, hentries, hgroups, hleft⟩ := exists_groups .nil lines
  rw [List.nil_append] at hparts
  obtain ⟨hgrouped, hlast⟩ := List.forall_mem_append.mp (hparts ▸ hlines)
  have hgroup : ∀ group ∈ groups, ∀ line ∈ group, 10 ∉ line :=
    fun group hmem line hline ↦ hgrouped line (List.mem_flatten_of_mem hmem hline)
  refine ⟨?_, ?_, ?_, fun fuel interpreter history last h ↦ Conversation.gather_of_hearAll h⟩
  · have hsplit : ∀ group ∈ groups, ([10].intercalate group).splitOn 10 = group :=
      fun group hmem ↦ ((hgroups group hmem).cases (hgroup group hmem) rfl).1
    rw [hleft.draftLines_eq hlast, hentries, List.flatMap_map, List.flatMap_def,
      List.map_congr_left hsplit, List.map_id', ← hparts]
  · intro hdraft
    have hne : left ≠ [] := by
      rintro rfl
      exact hdraft hleft.eq
    exact (isComplete_eq_false_iff.mp (hleft.isComplete_draft hne)).2
  · intro entry hentry
    rw [hentries] at hentry
    obtain ⟨group, hmem, heq⟩ := List.mem_map.mp hentry
    exact ((hgroups group hmem).cases (hgroup group hmem) heq).2

/-- The lines `f(`, `1)`, `:env` and `[1,`. -/
def fourLines : List (List UInt8) :=
  [[102, 40], [49, 41], [58, 101, 110, 118], [91, 49, 44]]

/-- The first two lines make one entry, the third is a command, and the last is not finished. -/
theorem gather_lines_call :
    (∀ line ∈ fourLines, 10 ∉ line) ∧
    gather [] fourLines = ([[102, 40, 10, 49, 41], [58, 101, 110, 118]], [91, 49, 44]) ∧
    [[102, 40, 10, 49, 41], [58, 101, 110, 118]].flatMap (List.splitOn 10) ++
      draftLines [91, 49, 44] = fourLines ∧
    needsMore (Text.Utf8.decode [91, 49, 44]) = true ∧ needsMore (textOf [[102, 40]]) = true ∧
    ∃ last, Conversation.hearAll 20 ⟨.fresh .standard .unlimited .silent, .empty, []⟩ fourLines =
        some last ∧ last.draft = [91, 49, 44] ∧
      last.history.entries = [[102, 40, 32, 49, 41], [58, 101, 110, 118]] := by
  have hlines : ∀ line ∈ fourLines, 10 ∉ line := by decide
  have hgather : gather [] fourLines =
      ([[102, 40, 10, 49, 41], [58, 101, 110, 118]], [91, 49, 44]) := by decide +kernel
  have hheard : (Conversation.hearAll 20 ⟨.fresh .standard .unlimited .silent, .empty, []⟩
      fourLines).isSome = true := by decide +kernel
  obtain ⟨last, hlast⟩ := Option.isSome_iff_exists.mp hheard
  obtain ⟨hparts, hdraft, hentries, hkept⟩ := gather_lines hlines
  obtain ⟨hleft, hhistory⟩ := hkept 20 _ _ last hlast
  rw [hgather] at hparts hdraft hentries hleft hhistory
  refine ⟨hlines, hgather, hparts, hdraft (by decide), ?_, last, hlast, hleft, ?_⟩
  · rcases hentries _ List.mem_cons_self with ⟨hone, -⟩ | ⟨-, hfirst⟩
    · exact absurd hone (by decide)
    · exact hfirst 1 (by decide) (by decide)
  · rw [hhistory]
    decide +kernel

end Console

end ExprLang
