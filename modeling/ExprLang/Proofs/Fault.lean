import ExprLang.Fault

/-!
What faults a computation has, and what a fault tells. All that can go wrong in a computation may
have some property in common (`FailsWith`). What a fault tells is found by search: it heads the
chain of all that it wraps (`Fault.chain`), and a question about it goes to the links of the chain
in turn until one of them can answer. Faults that are about the text of a program carry a place of
their own (`Fault.place?`). A foreign fault is one from outside the language that carries none, so
it answers no question at all. Traces are put on and taken off by a package of which no more is
known than that it leaves what is traced in the chain (`Tracing.Lawful`). As wrappings answer
nothing, the innermost cause is all that a search comes upon, so that its answers are those of
`Fault.kind`, `Fault.position?` and `Fault.incomplete`, however often and in whichever order a fault
was wrapped (`Tracing.report_wrapAll`).
-/

set_option autoImplicit false

namespace ExprLang

/-! ### What goes wrong -/

/-- Whatever goes wrong has the property. -/
def FailsWith {α : Type} (P : Fault → Prop) (r : Except Fault α) : Prop := ∀ f, r = .error f → P f

namespace FailsWith

variable {α β : Type} {P Q : Fault → Prop}

theorem ok (a : α) : FailsWith P (.ok a : Except Fault α) := fun _ h ↦ by cases h

theorem error {f : Fault} (h : P f) : FailsWith P (.error f : Except Fault α) :=
  fun _ heq ↦ Except.error.inj heq ▸ h

theorem mono {r : Except Fault α} (h : FailsWith P r) (hPQ : ∀ f, P f → Q f) : FailsWith Q r :=
  fun f hf ↦ hPQ f (h f hf)

theorem map {r : Except Fault α} (h : FailsWith P r) (f : α → β) : FailsWith P (r.map f) := by
  cases r with
  | error fault => exact error (h fault rfl)
  | ok a => exact ok (f a)

theorem bind {r : Except Fault α} (h : FailsWith P r) {f : α → Except Fault β}
    (hf : ∀ a, FailsWith P (f a)) : FailsWith P (r.bind f) := by
  cases r with
  | error fault => exact error (h fault rfl)
  | ok a => exact hf a

end FailsWith

/-! ### Chains -/

namespace Fault

/-- The fault and all that it wraps, from the outside in. -/
def chain : Fault → List Fault
  | traced inner => traced inner :: inner.chain
  | labelled label inner => labelled label inner :: inner.chain
  | f => [f]

/-- The answer of the first link of the chain that can answer. -/
def find? {α : Type} (look : Fault → Option α) (f : Fault) : Option α := f.chain.findSome? look

/-- What a fault tells, as a whole. -/
def report (f : Fault) : Class × Option Position × Bool := (f.kind, f.position?, f.incomplete)

theorem self_mem_chain (f : Fault) : f ∈ f.chain := by
  cases f <;> exact List.mem_cons_self

/-- All links of a chain tell the same. -/
theorem report_eq_of_mem {f g : Fault} (h : g ∈ f.chain) : g.report = f.report := by
  induction f with
  | traced inner ih =>
    rcases List.mem_cons.mp h with rfl | h
    · rfl
    · exact ih h
  | labelled label inner ih =>
    rcases List.mem_cons.mp h with rfl | h
    · rfl
    · exact ih h
  | _ => rw [List.mem_singleton.mp h]

/-! ### What a single fault tells -/

def lexical? : Fault → Option LexicalCause
  | lexical cause _ => some cause
  | _ => none

/-- The kind of token that is there in place of the needed one. -/
def expected? : Fault → Option Token.Kind
  | expected _ _ got _ => some got
  | _ => none

/-- The kind of token that is there in place of any that could be. -/
def expectedOneOf? : Fault → Option Token.Kind
  | expectedOneOf _ got _ => some got
  | _ => none

def assignmentTarget? : Fault → Option Span
  | assignmentTarget span => some span
  | _ => none

def typing? : Fault → Option TypingCause
  | typing cause => some cause
  | _ => none

def runtime? : Fault → Option RuntimeCause
  | runtime cause => some cause
  | _ => none

/-- The place that the fault itself carries. -/
def place? : Fault → Option Position
  | lexical _ place => some place
  | expected _ _ _ span | expectedOneOf _ _ span | assignmentTarget span => some span.start
  | _ => none

theorem isSome_position?_iff (f : Fault) :
    f.position?.isSome = true ↔ f.kind = .lexical ∨ f.kind = .parse := by
  induction f with
  | traced inner ih => exact ih
  | labelled label inner ih => exact ih
  | _ => simp [position?, kind]

theorem kind_of_incomplete {f : Fault} (h : f.incomplete = true) : f.kind = .parse := by
  induction f with
  | traced inner ih => exact ih h
  | labelled label inner ih => exact ih h
  | expected _ _ _ _ => rfl
  | expectedOneOf _ _ _ => rfl
  | _ => contradiction

end Fault

/-- A package of traces: how a trace is put on a fault and how it is taken off. -/
structure Tracing where
  mark : Fault → Fault
  unmark : Fault → Fault

/-- One wrapping of a fault. -/
inductive Wrap
  | mark
  | label (text : String)

namespace Tracing

open Fault

/-- What is traced is a link in the chain of its trace, and what is left without its trace was a
link in the chain before. -/
structure Lawful (T : Tracing) : Prop where
  mark (f : Fault) : f ∈ (T.mark f).chain
  unmark (f : Fault) : T.unmark f ∈ f.chain

section Questions

variable (T : Tracing)

def wrap (f : Fault) : Wrap → Fault
  | .mark => T.mark f
  | .label text => labelled text f

/-- The fault with several wrappings, the innermost one first. -/
def wrapAll (f : Fault) (wraps : List Wrap) : Fault := wraps.foldl T.wrap f

/-- The class by the first form, in a fixed order of forms, that is found in the chain. -/
def kindOf (f : Fault) : Fault.Class :=
  let inner := T.unmark f
  if (inner.find? lexical?).isSome then .lexical
  else if (inner.find? expected?).isSome || (inner.find? expectedOneOf?).isSome ||
    (inner.find? assignmentTarget?).isSome then .parse
  else if (inner.find? typing?).isSome then .typing
  else if (inner.find? runtime?).isSome then .runtime
  else .unknown

def positionOf (f : Fault) : Option Position := (T.unmark f).find? place?

def isIncomplete (f : Fault) : Bool :=
  let inner := T.unmark f
  match inner.find? expected? with
  | some got => got = .eof
  | none =>
    match inner.find? expectedOneOf? with
    | some got => got = .eof
    | none => false

def answers (f : Fault) : Fault.Class × Option Position × Bool :=
  (T.kindOf f, T.positionOf f, T.isIncomplete f)

end Questions

variable {T : Tracing}

/-- The searches find what the fault tells. -/
theorem answers_eq (hT : T.Lawful) (f : Fault) : T.answers f = f.report := by
  rw [← report_eq_of_mem (hT.unmark f)]
  unfold answers kindOf positionOf isIncomplete
  -- A search goes past a wrapping to what it wraps.
  induction T.unmark f with
  | traced inner ih => exact ih
  | labelled label inner ih => exact ih
  | _ => rfl

theorem report_wrapAll (hT : T.Lawful) (f : Fault) (wraps : List Wrap) :
    (T.wrapAll f wraps).report = f.report := by
  induction wraps generalizing f with
  | nil => rfl
  | cons wrap wraps ih =>
    refine (ih (T.wrap f wrap)).trans ?_
    cases wrap with
    | mark => exact (report_eq_of_mem (hT.mark f)).symm
    | label text => rfl

/-- Wrappings change no answer. A place is found in just those faults that are about the text of a
program, and only one about its form can be for want of more text. -/
theorem sees_through (hT : T.Lawful) (f : Fault) (wraps : List Wrap) :
    (T.kindOf (T.wrapAll f wraps) = T.kindOf f ∧
      T.positionOf (T.wrapAll f wraps) = T.positionOf f ∧
      T.isIncomplete (T.wrapAll f wraps) = T.isIncomplete f) ∧
    (T.kindOf f = f.kind ∧ T.positionOf f = f.position? ∧ T.isIncomplete f = f.incomplete) ∧
    ((T.positionOf f).isSome = true ↔ T.kindOf f = .lexical ∨ T.kindOf f = .parse) ∧
    (T.isIncomplete f = true → T.kindOf f = .parse) := by
  have hwrapped : T.answers (T.wrapAll f wraps) = T.answers f := by
    rw [answers_eq hT, answers_eq hT, report_wrapAll hT]
  obtain ⟨hkind, hrest⟩ := Prod.mk.inj (answers_eq hT f)
  obtain ⟨hposition, hincomplete⟩ := Prod.mk.inj hrest
  refine ⟨?_, ⟨hkind, hposition, hincomplete⟩, ?_, ?_⟩
  · simpa only [answers, Prod.mk.injEq] using hwrapped
  · rw [hposition, hkind]
    exact f.isSome_position?_iff
  · rw [hincomplete, hkind]
    exact kind_of_incomplete

/-- Traces that are put on what has none outside, and taken off one at a time. -/
def single : Tracing where
  mark
    | traced inner => traced inner
    | f => traced f
  unmark
    | traced inner => inner
    | f => f

theorem single_lawful : single.Lawful where
  mark f := by
    cases f with
    | traced inner => exact self_mem_chain _
    | _ => exact List.mem_cons_of_mem _ (self_mem_chain _)
  unmark f := by
    cases f with
    | traced inner => exact List.mem_cons_of_mem _ inner.self_mem_chain
    | _ => exact self_mem_chain _

/-- A missing bracket, with labels and traces around it. -/
theorem sees_through_mixed :
    single.Lawful ∧
    single.answers (single.wrapAll (expected "Expected ')'" .rparen .eof Span.zero)
      [.mark, .mark, .label "p", .label "q", .mark]) = (.parse, some Position.zero, true) := by
  obtain ⟨⟨hkind, hposition, hincomplete⟩, -⟩ := sees_through single_lawful
    (expected "Expected ')'" .rparen .eof Span.zero) [.mark, .mark, .label "p", .label "q", .mark]
  refine ⟨single_lawful, ?_⟩
  rw [answers, hkind, hposition, hincomplete]
  rfl

end Tracing

end ExprLang
