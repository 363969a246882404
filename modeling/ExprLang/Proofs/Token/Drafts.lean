import ExprLang.Token.Scanner
import Mathlib.Data.List.Basic

/-!
How a text falls into tokens. A scan is two things in a row: the text falls into drafts, which
never fails (`drafts`), and the drafts are finished in order until one of them cannot be
(`scan_eq`). A text may be cut where the next character does not join the draft in progress
(`drafts_append`). A separator, which is layout or a mark that stands alone, belongs to no token
that starts before it or ends after it, so a text may be cut at its separators.
-/

set_option autoImplicit false

namespace ExprLang.Token

/-- The place behind a text that is read from `place` on. -/
def placeAfter (place : Position) (text : List Char) : Position :=
  text.foldl Scanner.advance place

/-- The draft begun by a character that joins no earlier one. -/
def begun (place : Position) (c : Char) : Option Draft :=
  if isLayout c then none else some ⟨place, c, []⟩

/-- The drafts that a text falls into, when `d` is in progress and the text is read from `place`
on. -/
def drafts (place : Position) (d : Option Draft) : List Char → List Draft
  | [] => d.toList
  | c :: rest =>
    match d with
    | none => drafts (Scanner.advance place c) (begun place c) rest
    | some d =>
      if d.joins c then drafts (Scanner.advance place c) (some (d.push c)) rest
      else d :: drafts (Scanner.advance place c) (begun place c) rest

@[simp] theorem placeAfter_nil (place : Position) : placeAfter place [] = place := rfl

@[simp] theorem placeAfter_cons (place : Position) (c : Char) (rest : List Char) :
    placeAfter place (c :: rest) = placeAfter (Scanner.advance place c) rest := rfl

@[simp] theorem drafts_nil (place : Position) (d : Option Draft) :
    drafts place d [] = d.toList := rfl

@[simp] theorem drafts_none_cons (place : Position) (c : Char) (rest : List Char) :
    drafts place none (c :: rest) = drafts (Scanner.advance place c) (begun place c) rest := rfl

theorem drafts_of_joins {d : Draft} {c : Char} (h : d.joins c = true) (place : Position)
    (rest : List Char) : drafts place (some d) (c :: rest) =
      drafts (Scanner.advance place c) (some (d.push c)) rest := by
  rw [drafts]
  exact if_pos h

/-- A character that does not join the draft in progress leaves it as it is. -/
theorem drafts_of_not_joins {d : Draft} {c : Char} (h : d.joins c = false) (place : Position)
    (rest : List Char) :
    drafts place (some d) (c :: rest) = d :: drafts place none (c :: rest) := by
  rw [drafts]
  exact if_neg (Bool.eq_false_iff.mp h)

/-- What holds of a draft when a character of the text begins it, and still does when a character
joins it, holds of all the drafts of a text. -/
theorem forall_mem_drafts {P : Draft → Prop} (hpush : ∀ d c, P d → d.joins c = true → P (d.push c))
    {text : List Char} (hbegin : ∀ c ∈ text, isLayout c = false → ∀ place, P ⟨place, c, []⟩)
    {place : Position} {d : Option Draft} (hd : ∀ draft ∈ d, P draft) :
    ∀ draft ∈ drafts place d text, P draft := by
  induction text generalizing place d with
  | nil =>
    intro draft hdraft
    exact hd draft (Option.mem_toList.mp hdraft)
  | cons c rest ih =>
    obtain ⟨hfirst, hothers⟩ := List.forall_mem_cons.mp hbegin
    have hbegun : ∀ draft ∈ drafts (Scanner.advance place c) (begun place c) rest, P draft := by
      refine ih hothers fun draft hdraft ↦ ?_
      unfold begun at hdraft
      split_ifs at hdraft with hlayout
      · contradiction
      · cases hdraft
        exact hfirst (Bool.eq_false_iff.mpr hlayout) place
    cases d with
    | none => exact hbegun
    | some draft =>
      have hdraft := hd draft rfl
      by_cases hjoins : draft.joins c = true
      · rw [drafts_of_joins hjoins]
        exact ih hothers (by simpa using hpush draft c hdraft hjoins)
      · rw [Bool.not_eq_true] at hjoins
        rw [drafts_of_not_joins hjoins]
        exact List.forall_mem_cons.mpr ⟨hdraft, hbegun⟩

/-! ### A scan finishes the drafts in order -/

/-- A scanner lets a character join the draft in progress, or finishes that draft and begins the
next one. -/
theorem feed_eq (s : Scanner) (c : Char) :
    s.feed c = match s.draft with
      | none => .ok ⟨Scanner.advance s.place c, begun s.place c, s.tokens⟩
      | some d =>
        if d.joins c then .ok ⟨Scanner.advance s.place c, some (d.push c), s.tokens⟩
        else d.finish.map fun t ↦
          ⟨Scanner.advance s.place c, begun s.place c, s.tokens.push t⟩ := by
  obtain ⟨place, _ | d, tokens⟩ := s
  · rfl
  · by_cases h : d.joins c = true
    · simp only [Scanner.feed, h, if_true]
    · simp only [Scanner.feed, h, Scanner.flush]
      cases d.finish <;> rfl

/-- What is left to do for a scanner that has `text` before it. -/
theorem foldlM_feed_finish (s : Scanner) (text : List Char) :
    (text.foldlM Scanner.feed s).bind Scanner.finish =
      ((drafts s.place s.draft text).mapM Draft.finish).map fun ts ↦
        s.tokens.toList ++ ts ++ [.endAt (placeAfter s.place text)] := by
  induction text generalizing s with
  | nil =>
    obtain ⟨place, _ | d, tokens⟩ := s
    · simp [Scanner.finish, Scanner.flush, Except.bind, Except.map, pure, Except.pure]
    · cases h : d.finish <;>
        simp [Scanner.finish, Scanner.flush, h, Except.bind, Except.map, pure, Except.pure, bind]
  | cons c rest ih =>
    rw [List.foldlM_cons, feed_eq]
    obtain ⟨place, _ | d, tokens⟩ := s
    · exact ih _
    · by_cases h : d.joins c = true
      · simp only [h, if_true, drafts_of_joins h]
        exact ih _
      · rw [Bool.not_eq_true] at h
        rw [drafts_of_not_joins h, List.mapM_cons]
        cases hd : d.finish with
        | error fault => simp [h, hd, Except.map, bind, Except.bind]
        | ok t =>
          have hrest := ih ⟨Scanner.advance place c, begun place c, tokens.push t⟩
          rw [drafts_none_cons]
          simp only [h, hd, Except.map, bind, Except.bind, Bool.false_eq_true, if_false] at hrest ⊢
          rw [hrest]
          cases (drafts (Scanner.advance place c) (begun place c) rest).mapM Draft.finish <;>
            simp [pure, Except.pure]

/-- Scanning finishes the drafts of the text in order, and puts the end mark behind them. -/
theorem scan_eq (file source : String) :
    scan file source =
      ((drafts ⟨file, 1, 1⟩ none source.toList).mapM Draft.finish).map fun ts ↦
        ts ++ [.endAt (placeAfter ⟨file, 1, 1⟩ source.toList)] := by
  have h := foldlM_feed_finish (Scanner.start file) source.toList
  simpa [scan, Scanner.start] using h

/-! ### Where a text may be cut -/

/-- The draft in progress behind a text. -/
def inProgress (place : Position) (d : Option Draft) : List Char → Option Draft
  | [] => d
  | c :: rest =>
    match d with
    | none => inProgress (Scanner.advance place c) (begun place c) rest
    | some d =>
      if d.joins c then inProgress (Scanner.advance place c) (some (d.push c)) rest
      else inProgress (Scanner.advance place c) (begun place c) rest

@[simp] theorem inProgress_nil (place : Position) (d : Option Draft) :
    inProgress place d [] = d := rfl

@[simp] theorem inProgress_none_cons (place : Position) (c : Char) (rest : List Char) :
    inProgress place none (c :: rest) =
      inProgress (Scanner.advance place c) (begun place c) rest := rfl

theorem inProgress_of_joins {d : Draft} {c : Char} (h : d.joins c = true) (place : Position)
    (rest : List Char) : inProgress place (some d) (c :: rest) =
      inProgress (Scanner.advance place c) (some (d.push c)) rest := by
  rw [inProgress]
  exact if_pos h

theorem inProgress_of_not_joins {d : Draft} {c : Char} (h : d.joins c = false)
    (place : Position) (rest : List Char) :
    inProgress place (some d) (c :: rest) = inProgress place none (c :: rest) := by
  rw [inProgress]
  exact if_neg (Bool.eq_false_iff.mp h)

/-- A text may be cut before a character that does not join the draft in progress. -/
theorem drafts_append (place : Position) (d : Option Draft) (first : List Char)
    {second : List Char}
    (h : ∀ c ∈ second.head?, ∀ e ∈ inProgress place d first, e.joins c = false) :
    drafts place d (first ++ second) =
      drafts place d first ++ drafts (placeAfter place first) none second := by
  induction first generalizing place d with
  | nil =>
    cases d with
    | none => rfl
    | some d =>
      cases second with
      | nil => rfl
      | cons c rest => exact drafts_of_not_joins (h c rfl d rfl) place rest
  | cons c rest ih =>
    cases d with
    | none => exact ih _ _ h
    | some d =>
      by_cases hjoins : d.joins c = true
      · rw [inProgress_of_joins hjoins] at h
        rw [List.cons_append, drafts_of_joins hjoins, drafts_of_joins hjoins]
        exact ih _ _ h
      · rw [Bool.not_eq_true] at hjoins
        rw [inProgress_of_not_joins hjoins] at h
        rw [List.cons_append, drafts_of_not_joins hjoins, drafts_of_not_joins hjoins]
        exact congrArg (d :: ·) (ih _ _ h)

/-! ### Separators -/

/-- Layout, and the marks that are a token by themselves and never part of another one. -/
def isSeparator (c : Char) : Bool :=
  isLayout c || ['(', ')', '{', '}', '[', ']', ';', ',', '+', '-', '*', '/'].contains c

theorem isSeparator_cases {c : Char} (h : isSeparator c = true) :
    isNameStart c = false ∧ isDigit c = false ∧
      c ≠ '=' ∧ c ≠ '!' ∧ c ≠ '<' ∧ c ≠ '>' ∧ c ≠ '&' ∧ c ≠ '|' := by
  simp only [isSeparator, isLayout, Bool.or_eq_true, decide_eq_true_eq, List.contains_iff_mem,
    List.mem_cons, List.not_mem_nil, or_false] at h
  rcases h with (((rfl | rfl) | rfl) | rfl) | rfl | rfl | rfl | rfl | rfl | rfl | rfl | rfl | rfl |
    rfl | rfl | rfl <;> decide

/-- A separator joins no draft. -/
theorem not_joins_separator (d : Draft) {c : Char} (h : isSeparator c = true) :
    d.joins c = false := by
  obtain ⟨hname, hdigit, heq, -, -, -, hand, hor⟩ := isSeparator_cases h
  simp only [Draft.joins, isNamePart, hname, hdigit, heq, hand, hor]
  split_ifs <;> first | rfl | (split <;> simp)

/-- Nothing joins a separator. -/
theorem separator_not_joins (place : Position) {c : Char} (h : isSeparator c = true) (x : Char) :
    Draft.joins ⟨place, c, []⟩ x = false := by
  obtain ⟨hname, hdigit, heq, hbang, hless, hgreater, hand, hor⟩ := isSeparator_cases h
  simp only [Draft.joins, hname, hdigit]
  split <;> simp_all

/-- A text may be cut before a separator. -/
theorem drafts_append_of_head (place : Position) (d : Option Draft) (first : List Char)
    {second : List Char} (h : ∀ c ∈ second.head?, isSeparator c = true) :
    drafts place d (first ++ second) =
      drafts place d first ++ drafts (placeAfter place first) none second :=
  drafts_append place d first fun c hc e _ ↦ not_joins_separator e (h c hc)

/-- A text may be cut behind a separator. -/
theorem drafts_cons_separator (place : Position) {c : Char} (h : isSeparator c = true)
    (rest : List Char) : drafts place none (c :: rest) =
      (begun place c).toList ++ drafts (Scanner.advance place c) none rest := by
  rw [drafts_none_cons, begun]
  split_ifs
  · rfl
  · cases rest with
    | nil => rfl
    | cons x rest => exact drafts_of_not_joins (separator_not_joins place h x) _ _

end ExprLang.Token
