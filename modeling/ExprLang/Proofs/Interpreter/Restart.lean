import ExprLang.Proofs.Interpreter.Relocation

/-!
Starting again. A host sees of an interpreter the kinds and texts of values, faults, what is
printed, and the names that are bound and defined (`State.answers`). None of it shows where arrays
lie or how definitions are numbered (`answers_onTop`). A reset leaves old arrays and used sites and
nothing else, so no host can tell it from a new interpreter (`answers_reset`).
-/

set_option autoImplicit false

namespace ExprLang.Interpreter

/-- What a host may ask of an interpreter. -/
inductive Request
  /-- To run a source, giving up an expression that takes more than `fuel` steps. -/
  | run (fuel : Nat) (file source : String)
  | get (name : String)
  | contains (name : String)
  | containsLocal (name : String)
  | names
  | text
  /-- Whether the current frame is inside another. -/
  | nested
  | functions
  | reset

/-- What a host gets to see. -/
inductive Answer
  | result (seen : Except Fault (Value.Kind × String)) (printed : String)
  | flag (b : Bool)
  | names (names : List String)
  | text (text : String)
  | done

/-- A value as a host sees it. -/
def look (h : Heap) (v : Value) : Value.Kind × String := (v.kind, v.text h)

namespace State

/-- The state once everything printed and logged has been taken away. -/
def cleared (s : State) : State := s.drain.2.2

/-- The answer to a request, in a state that has no printed text left. There is none if a source
takes too long. -/
def reply (s : State) : Request → Option (Answer × State)
  | .run fuel file source =>
    match s.runSource fuel file source with
    | none => none
    | some (r, t) => some (.result (r.map (look t.heap)) t.output.text, t)
  | .get name => some (.result ((s.scope.get name).map (look s.heap)) "", s)
  | .contains name => some (.flag (s.scope.contains name), s)
  | .containsLocal name => some (.flag (s.scope.containsLocal name), s)
  | .names => some (.names s.scope.names, s)
  | .text => some (.text s.scope.text, s)
  | .nested => some (.flag !s.scope.parents.isEmpty, s)
  | .functions => some (.names s.functions.names, s)
  | .reset => some (.done, s.reset)

/-- The answers to requests that are made one after the other, up to one that is not answered. -/
def answers (s : State) : List Request → List Answer
  | [] => []
  | request :: rest =>
    match s.cleared.reply request with
    | none => []
    | some (answer, t) => answer :: t.answers rest

variable (r : Remains)

theorem cleared_onTop (s : State) : (s.onTop r).cleared = s.cleared.onTop r := rfl

theorem look_onTop (s : State) (v : Value) : look (s.onTop r).heap (v.onTop r) = look s.heap v := by
  simp only [look, onTop_heap, Value.kind_onTop, Value.text_onTop]

theorem map_look_onTop (s : State) (result : Except Fault Value) :
    (result.map (Value.onTop r)).map (look (s.onTop r).heap) = result.map (look s.heap) := by
  cases result with
  | error f => rfl
  | ok v => exact congrArg Except.ok (look_onTop r s v)

/-- An answer does not show remains. -/
theorem reply_onTop (s : State) (request : Request) :
    (s.onTop r).reply request = (s.reply request).map (Prod.map id (State.onTop r)) := by
  cases request with
  | run fuel file source =>
    simp only [reply, runSource_onTop]
    cases s.runSource fuel file source with
    | none => rfl
    | some outcome =>
      obtain ⟨result, t⟩ := outcome
      simp only [Option.map_some, Outcome.onTop, map_look_onTop]
      rfl
  | get name =>
    simp only [reply, onTop_scope, Scope.get_map, map_look_onTop]
    rfl
  | contains name =>
    simp only [reply, onTop_scope, Scope.contains_map]
    rfl
  | containsLocal name =>
    simp only [reply, onTop_scope, Scope.containsLocal_map]
    rfl
  | names =>
    simp only [reply, onTop_scope, Scope.names_map]
    rfl
  | text =>
    simp only [reply, onTop_scope, Scope.text_map]
    rfl
  | nested =>
    simp only [reply, onTop_scope, Scope.map, List.isEmpty_map]
    rfl
  | functions =>
    simp only [reply, onTop_functions, Table.names_map]
    rfl
  | reset => rfl

/-- Nor does any number of answers. -/
theorem answers_onTop (s : State) (requests : List Request) :
    (s.onTop r).answers requests = s.answers requests := by
  induction requests generalizing s with
  | nil => rfl
  | cons request rest ih =>
    rw [answers, answers, cleared_onTop, reply_onTop]
    cases s.cleared.reply request with
    | none => rfl
    | some next =>
      obtain ⟨answer, t⟩ := next
      exact congrArg (List.cons answer) (ih t)

theorem answers_eq_of_cleared {s t : State} (h : s.cleared = t.cleared) (requests : List Request) :
    s.answers requests = t.answers requests := by
  cases requests with
  | nil => rfl
  | cons request rest => rw [answers, answers, h]

/-- What a reset leaves of a state. -/
def remains (s : State) : Remains := ⟨s.heap.arrays, s.nextSite⟩

/-- After a reset, an interpreter is in the state of a new one on top of what the reset leaves. -/
theorem cleared_reset_onTop (s : State) (text : String) (journal : Log.Journal) :
    (s.reset.onTop ⟨#[], 0⟩).cleared =
      ((fresh s.limits ⟨text, s.output.room⟩ journal).onTop s.remains).cleared := by
  have hheap : s.heap.onTop ⟨#[], 0⟩ = Heap.empty.onTop s.remains := by
    simp [Heap.onTop, Heap.empty, remains]
  have hsite : 0 + s.nextSite = s.nextSite + 0 := Nat.add_comm 0 s.nextSite
  simp only [cleared, drain, onTop, reset, fresh, hheap, hsite]
  rfl

/-- Whatever an interpreter has run, after a reset it answers every sequence of requests as a new
one with the same limits does, whatever the two have printed and logged before. -/
theorem answers_reset (s : State) (text : String) (journal : Log.Journal)
    (requests : List Request) :
    s.reset.answers requests =
      (fresh s.limits ⟨text, s.output.room⟩ journal).answers requests :=
  calc s.reset.answers requests
    _ = (s.reset.onTop ⟨#[], 0⟩).answers requests := (answers_onTop _ _ _).symm
    _ = ((fresh s.limits ⟨text, s.output.room⟩ journal).onTop s.remains).answers requests :=
      answers_eq_of_cleared (cleared_reset_onTop s text journal) requests
    _ = (fresh s.limits ⟨text, s.output.room⟩ journal).answers requests := answers_onTop _ _ _

example : (fresh .standard .unlimited .silent).answers
    [.run 20 "" "a = [1]", .reset, .run 20 "" "print([2])", .get "a"] =
    [.result (.ok (.array, "[1]")) "", .done, .result (.ok (.void, "void")) "[2]\n",
      .result (.error (.runtime (.undefinedVariable "a"))) ""] :=
  rfl

end State

end ExprLang.Interpreter
