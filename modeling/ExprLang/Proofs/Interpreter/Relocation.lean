import ExprLang.Interpreter.Session
import ExprLang.Proofs.Expr.Shape
import ExprLang.Proofs.Interpreter.Instructions
import ExprLang.Proofs.Scope

/-!
Evaluation on top of remains. An interpreter may hold arrays, and may have given away sites, that
nothing refers to: its own arrays then stand behind the old ones, and its own sites are numbered
from the first that is free. Every operation treats addresses and sites only as names, so it does
the same in the moved state (`step_onTop`), and by induction so does every run (`run_onTop`) and
every source (`runSource_onTop`). The log is left out of the comparison.
-/

set_option autoImplicit false

namespace ExprLang

/-- What is left of evaluations that nothing refers to any more. -/
structure Remains where
  arrays : Array (Array Int64)
  /-- How many sites have been given away. -/
  sites : Nat

/-! ### Code -/

namespace Expr

mutual

/-- The code with every site moved up by `n`. -/
def shifted (n : Nat) : Code → Code
  | int value => int value
  | binary op left right => binary op (left.shifted n) (right.shifted n)
  | var name => var name
  | assign name value => assign name (value.shifted n)
  | block items => block (shiftedList n items)
  | branch condition onTrue onFalse =>
    branch (condition.shifted n) (onTrue.shifted n) (shiftedOption n onFalse)
  | loop condition body => loop (condition.shifted n) (body.shifted n)
  | define site name parameter body => define (n + site) name parameter (body.shifted n)
  | call name argument => call name (argument.shifted n)
  | array elements => array (shiftedList n elements)
  | access base index => access (base.shifted n) (index.shifted n)
  | assignCell base index value =>
    assignCell (base.shifted n) (index.shifted n) (value.shifted n)
  | missing => missing

def shiftedList (n : Nat) : List Code → List Code
  | [] => []
  | e :: rest => e.shifted n :: shiftedList n rest

def shiftedOption (n : Nat) : Option Code → Option Code
  | none => none
  | some e => some (e.shifted n)

end

variable {μ : Type}

theorem markedList_add {items : List (Expr μ)} {n : Nat}
    (h : ∀ e ∈ items, ∀ site,
      e.marked (n + site) = ((e.marked site).1.shifted n, n + (e.marked site).2)) (site : Site) :
    markedList (n + site) items =
      (shiftedList n (markedList site items).1, n + (markedList site items).2) := by
  induction items generalizing site with
  | nil => rfl
  | cons e rest ih =>
    have hrest := ih fun e he ↦ h e (List.mem_cons_of_mem _ he)
    simp only [markedList, h e List.mem_cons_self, hrest, shiftedList]

/-- Numbering from a later site gives the same code with its sites moved. -/
theorem marked_add (n : Nat) (e : Expr μ) (site : Site) :
    e.marked (n + site) = ((e.marked site).1.shifted n, n + (e.marked site).2) := by
  induction e generalizing site with
  | int | var | missing => rfl
  | assign _ _ hvalue => simp only [marked, hvalue, shifted]
  | call _ _ hargument => simp only [marked, hargument, shifted]
  | define _ _ _ _ hbody => simp only [marked, Nat.add_assoc, hbody, shifted]
  | binary _ _ _ hleft hright => simp only [marked, hleft, hright, shifted]
  | loop _ _ hcondition hbody => simp only [marked, hcondition, hbody, shifted]
  | access _ _ hbase hindex => simp only [marked, hbase, hindex, shifted]
  | assignCell _ _ _ hbase hindex hvalue => simp only [marked, hbase, hindex, hvalue, shifted]
  | branch _ _ onFalse hcondition hTrue hFalse =>
    cases onFalse with
    | none => simp only [marked, markedOption, hcondition, hTrue, shifted, shiftedOption]
    | some other =>
      simp only [marked, markedOption, hcondition, hTrue, hFalse other rfl, shifted, shiftedOption]
  | block items hitems | array items hitems =>
    simp only [marked, markedList_add hitems, shifted]

end Expr

/-! ### Values and heaps -/

def Function.onTop (r : Remains) (f : Function) : Function :=
  { f with site := r.sites + f.site, body := f.body.shifted r.sites }

/-- The value as it is in an interpreter that has remains. -/
def Value.onTop (r : Remains) : Value → Value
  | int n => int n
  | bit b => bit b
  | array address => array (r.arrays.size + address)
  | function f => function (f.onTop r)
  | builtin name => builtin name
  | void => void

/-- The arrays that are left, and behind them those of the heap. -/
def Heap.onTop (r : Remains) (h : Heap) : Heap := ⟨r.arrays ++ h.arrays⟩

namespace Heap

variable (r : Remains) (h : Heap)

@[simp]
theorem cells_onTop (address : Nat) :
    (h.onTop r).cells (r.arrays.size + address) = h.cells address := by
  simp [cells, onTop, Array.getElem?_append_right]

theorem allocate_onTop (cells : Array Int64) : (h.onTop r).allocate cells =
    (r.arrays.size + (h.allocate cells).1, (h.allocate cells).2.onTop r) := by
  simp [allocate, onTop]

theorem position_onTop (address : Nat) (index : Int64) :
    (h.onTop r).position (r.arrays.size + address) index = h.position address index := by
  simp [position, outOfBounds]

theorem read_onTop (address : Nat) (index : Int64) :
    (h.onTop r).read (r.arrays.size + address) index = h.read address index := by
  simp [read, position_onTop]

theorem setCell_onTop (address position : Nat) (value : Int64) :
    (h.onTop r).setCell (r.arrays.size + address) position value =
      (h.setCell address position value).onTop r := by
  simp only [setCell, onTop, mk.injEq]
  refine Array.ext_getElem? fun i ↦ ?_
  rw [Array.getElem?_modify]
  by_cases hi : i < r.arrays.size
  -- No cell of an array that was left is written.
  · rw [if_neg (by omega), Array.getElem?_append_left hi, Array.getElem?_append_left hi]
  · obtain ⟨k, rfl⟩ := Nat.exists_eq_add_of_le (Nat.not_lt.mp hi)
    simp [Array.getElem?_append_right, Array.getElem?_modify]

end Heap

namespace Value

variable (r : Remains)

@[simp]
theorem kind_onTop (v : Value) : (v.onTop r).kind = v.kind := by
  cases v <;> rfl

@[simp]
theorem text_onTop (h : Heap) (v : Value) : (v.onTop r).text (h.onTop r) = v.text h := by
  cases v with
  | array address => simp only [onTop, text, Heap.cells_onTop]
  | _ => rfl

@[simp]
theorem toInt?_onTop (v : Value) : (v.onTop r).toInt? = v.toInt? := by
  cases v <;> rfl

@[simp]
theorem asInt_onTop (operation : String) (v : Value) :
    (v.onTop r).asInt operation = v.asInt operation := by
  simp [asInt]

@[simp]
theorem asBit_onTop (operation : String) (v : Value) :
    (v.onTop r).asBit operation = v.asBit operation := by
  cases v <;> rfl

/-- Addresses and sites are moved by the same distance, so those that differ still do. -/
theorem same_onTop (h : Heap) (a b : Value) :
    same (h.onTop r) (a.onTop r) (b.onTop r) = same h a b := by
  cases a <;> cases b <;> simp [onTop, same, Function.onTop]

@[simp]
theorem equal_onTop (h : Heap) (a b : Value) :
    equal (h.onTop r) (a.onTop r) (b.onTop r) = equal h a b := by
  simp [equal, same_onTop]

end Value

namespace Operator

variable (r : Remains)

/-- Operators give numbers and bits, which are the same everywhere. -/
theorem map_onTop_applyInt (op : Operator) (m n : Int64) :
    (op.applyInt m n).map (Value.onTop r) = op.applyInt m n := by
  cases op with
  | divide =>
    simp only [applyInt]
    split_ifs <;> rfl
  | _ => rfl

theorem apply_onTop (op : Operator) (h : Heap) (left right : Value) :
    op.apply (h.onTop r) (left.onTop r) (right.onTop r) =
      (op.apply h left right).map (Value.onTop r) := by
  cases op with
  | equal | notEqual =>
    simp only [apply, Value.equal_onTop]
    rfl
  | and | or =>
    simp only [apply, Value.asBit_onTop]
    cases left.asBit _ <;> cases right.asBit _ <;> rfl
  | divide =>
    simp only [apply, Value.asInt_onTop]
    cases left.asInt _ with
    | error f => rfl
    | ok m =>
      cases right.asInt _ with
      | error f => rfl
      | ok n => exact (map_onTop_applyInt r divide m n).symm
  | _ =>
    simp only [apply, Value.asInt_onTop]
    cases left.asInt _ <;> cases right.asInt _ <;> rfl

end Operator

namespace Interpreter

/-! ### States -/

namespace State

/-- The state on top of remains. The log is left out, so that states which differ in nothing else
become the same. -/
@[simps]
def onTop (r : Remains) (s : State) : State where
  scope := s.scope.map (Value.onTop r)
  functions := s.functions.map (Function.onTop r)
  heap := s.heap.onTop r
  nextSite := r.sites + s.nextSite
  iterations := s.iterations
  depth := s.depth
  limits := s.limits
  output := s.output
  journal := .silent

variable (r : Remains) (s : State)

theorem onTop_note (level : Log.Level) (text : Unit → String) :
    (s.note level text).onTop r = s.onTop r :=
  rfl

theorem onTop_record (records : List Log.Record) : (s.record records).onTop r = s.onTop r := rfl

theorem record_onTop (records : List Log.Record) : (s.onTop r).record records = s.onTop r := by
  induction records with
  | nil => rfl
  | cons _ _ ih => exact ih

theorem bind_onTop (name : String) (v : Value) :
    (s.onTop r).bind name (v.onTop r) = (s.bind name v).onTop r := by
  simp only [bind, onTop, Scope.put_map]

theorem define_onTop (f : Function) : (s.onTop r).define (f.onTop r) = (s.define f).onTop r := by
  have hscope := s.scope.put_map (Value.onTop r) f.name (.function f)
  have hfunctions := s.functions.insert_map (Function.onTop r) f.name f
  simp only [define, onTop]
  rw [← hscope, ← hfunctions]
  rfl

theorem countIteration_onTop : (s.onTop r).countIteration =
    (s.countIteration.1, s.countIteration.2.onTop r) := by
  simp only [countIteration, onTop_limits, onTop_iterations]
  split_ifs <;> rfl

theorem enterCall_onTop (f : Function) (argument : Value) :
    (s.onTop r).enterCall (f.onTop r) (argument.onTop r) = (s.enterCall f argument).onTop r := by
  simp only [enterCall, onTop, note, Function.onTop, Scope.child_map, Scope.put_map]
  rfl

theorem applyBuiltin_onTop (b : Builtin) (argument : Value) :
    (s.onTop r).applyBuiltin b (argument.onTop r) =
      ((s.applyBuiltin b argument).1.map (Value.onTop r),
        (s.applyBuiltin b argument).2.onTop r) := by
  cases b with
  | length =>
    change (s.onTop r).applyLength (argument.onTop r) =
      ((s.applyLength argument).1.map (Value.onTop r), (s.applyLength argument).2.onTop r)
    cases argument with
    | array address => simp [applyLength, Value.onTop, Except.map]
    | _ => rfl
  | print =>
    change (s.onTop r).applyPrint (argument.onTop r) =
      ((s.applyPrint argument).1.map (Value.onTop r), (s.applyPrint argument).2.onTop r)
    simp only [applyPrint, onTop_heap, onTop_output, Value.text_onTop]
    cases s.output.writeLine (argument.text s.heap) <;> rfl

end State

/-! ### Machines -/

/-- An outcome in an interpreter that has remains. -/
def Outcome.onTop (r : Remains) (outcome : Outcome) : Outcome :=
  (outcome.1.map (Value.onTop r), outcome.2.onTop r)

def Work.onTop (r : Remains) : Work → Work
  | .rightOperand op right => .rightOperand op (right.shifted r.sites)
  | .operate op left => .operate op (left.onTop r)
  | .bind name => .bind name
  | .sequence rest => .sequence (Expr.shiftedList r.sites rest)
  | .choose onTrue onFalse =>
    .choose (onTrue.shifted r.sites) (Expr.shiftedOption r.sites onFalse)
  | .test condition body last =>
    .test (condition.shifted r.sites) (body.shifted r.sites) (last.onTop r)
  | .again condition body => .again (condition.shifted r.sites) (body.shifted r.sites)
  | .applyBuiltin b => .applyBuiltin b
  | .enter f => .enter (f.onTop r)
  | .leave caller => .leave (caller.map (Value.onTop r))
  | .element done rest => .element done (Expr.shiftedList r.sites rest)
  | .index e => .index (e.shifted r.sites)
  | .read address => .read (r.arrays.size + address)
  | .cellIndex e value => .cellIndex (e.shifted r.sites) (value.shifted r.sites)
  | .cellValue address value =>
    .cellValue (r.arrays.size + address) (value.shifted r.sites)
  | .write address i => .write (r.arrays.size + address) i

def Focus.onTop (r : Remains) : Focus → Focus
  | .eval e => .eval (e.shifted r.sites)
  | .value v => .value (v.onTop r)
  | .fault f => .fault f

def Task.onTop (r : Remains) : Task → Task
  | eval e => eval (e.shifted r.sites)
  | give v w => give (v.onTop r) (w.onTop r)

def Action.onTop (r : Remains) : Action → Action
  | result outcome => result (outcome.map (Value.onTop r))
  | lookUp name => lookUp name
  | bind name v => bind name (v.onTop r)
  | define f => define (f.onTop r)
  | operate op left right => operate op (left.onTop r) (right.onTop r)
  | builtin b argument => builtin b (argument.onTop r)
  | allocate cells => allocate cells
  | read address index => read (r.arrays.size + address) index
  | write address index value => write (r.arrays.size + address) index value

def Instruction.onTop (r : Remains) : Instruction → Instruction
  | settle a => settle (a.onTop r)
  | push e w => push (e.shifted r.sites) (w.onTop r)
  | goOn e => goOn (e.shifted r.sites)
  | find name argument => find name (argument.shifted r.sites)
  | enter f argument => enter (f.onTop r) (argument.onTop r)
  | leave caller v => leave (caller.map (Value.onTop r)) (v.onTop r)
  | enterLoop condition body => enterLoop (condition.shifted r.sites) (body.shifted r.sites)
  | turn condition body => turn (condition.shifted r.sites) (body.shifted r.sites)
  | check condition body last =>
    check (condition.shifted r.sites) (body.shifted r.sites) (last.onTop r)

/-- The machine of an interpreter that has remains, at the same point. -/
def Machine.onTop (r : Remains) (m : Machine) : Machine :=
  ⟨m.focus.onTop r, m.work.map (Work.onTop r), m.state.onTop r⟩

section Instructions

variable (r : Remains)

theorem Instruction.ofCode_onTop (e : Code) : ofCode (e.shifted r.sites) = (ofCode e).onTop r := by
  cases e with
  | var name | call name =>
    simp only [Expr.shifted, ofCode]
    cases Builtin.ofName? name <;> rfl
  | block items | array items => cases items <;> rfl
  | _ => rfl

theorem Instruction.ofWork_onTop (v : Value) (w : Work) :
    ofWork (v.onTop r) (w.onTop r) = (ofWork v w).onTop r := by
  cases w with
  | sequence rest => cases rest <;> rfl
  | choose onTrue onFalse =>
    simp only [Work.onTop, ofWork, Value.asBit_onTop]
    cases v.asBit _ with
    | error f => rfl
    | ok holds => cases holds <;> cases onFalse <;> rfl
  | test condition body last =>
    simp only [Work.onTop, ofWork, Value.asBit_onTop]
    cases v.asBit _ with
    | error f => rfl
    | ok holds => cases holds <;> rfl
  | element done rest => cases v <;> cases rest <;> rfl
  | index | cellIndex | write => cases v <;> rfl
  | read | cellValue =>
    simp only [Work.onTop, ofWork, Value.asInt_onTop]
    cases v.asInt _ <;> rfl
  | _ => rfl

/-- What is done does not depend on where the arrays stand or how the sites are numbered. -/
theorem Task.instruction_onTop (t : Task) : (t.onTop r).instruction = t.instruction.onTop r := by
  cases t with
  | eval e => exact Instruction.ofCode_onTop r e
  | give v w => exact Instruction.ofWork_onTop r v w

theorem Action.act_onTop (a : Action) (s : State) :
    (a.onTop r).act (s.onTop r) = ((a.act s).1.map (Value.onTop r), (a.act s).2.onTop r) := by
  cases a with
  | result => rfl
  | lookUp name => simp only [onTop, act, State.onTop_scope, Scope.get_map]
  | bind name v => simp only [onTop, act, State.bind_onTop, Except.map]
  | define f =>
    have hdefine := s.define_onTop r f
    simp only [onTop, act, State.onTop_note, ← hdefine]
    rfl
  | operate op left right => simp only [onTop, act, State.onTop_heap, Operator.apply_onTop]
  | builtin b argument => exact s.applyBuiltin_onTop r b argument
  | allocate cells =>
    simp only [onTop, act, State.onTop_heap, Heap.allocate_onTop]
    rfl
  | read address index =>
    simp only [onTop, act, State.onTop_heap, Heap.read_onTop]
    cases s.heap.read address index <;> rfl
  | write address index value =>
    simp only [onTop, act, State.onTop_heap, Heap.position_onTop]
    cases s.heap.position address index with
    | error f => rfl
    | ok cell =>
      simp only [Heap.setCell_onTop]
      rfl

end Instructions

namespace Machine

variable (r : Remains)

theorem ofResult_onTop (result : Except Fault Value) :
    ofResult (result.map (Value.onTop r)) = (ofResult result).onTop r := by
  cases result <;> rfl

theorem beginCheck_onTop (condition body : Code) (last : Value) (work : List Work) (s : State) :
    beginCheck (condition.shifted r.sites) (body.shifted r.sites) (last.onTop r)
        (work.map (Work.onTop r)) (s.onTop r) =
      (beginCheck condition body last work s).onTop r := by
  simp only [beginCheck, State.countIteration_onTop]
  cases s.countIteration with
  | mk result t =>
    cases result with
    | ok u => rfl
    | error f => rfl

theorem perform_onTop (i : Instruction) (work : List Work) (s : State) :
    (i.onTop r).perform (work.map (Work.onTop r)) (s.onTop r) = (i.perform work s).onTop r := by
  cases i with
  | settle a =>
    simp only [Instruction.onTop, Instruction.perform, Action.act_onTop, ofResult_onTop]
    rfl
  | find name argument =>
    simp only [Instruction.onTop, Instruction.perform, State.onTop_functions, Table.get?_map]
    cases s.functions.get? name <;> rfl
  | enter f argument =>
    simp only [Instruction.onTop, Instruction.perform, State.onTop_limits, State.onTop_depth,
      State.enterCall_onTop]
    split_ifs <;> rfl
  | enterLoop condition body =>
    -- Entering a loop starts its count and writes to the log, which is left out.
    exact beginCheck_onTop r condition body .void work (s.enterLoop condition)
  | check condition body last => exact beginCheck_onTop r condition body last work s
  | push | goOn | leave | turn => rfl

theorem step_machine_onTop (t : Task) (work : List Work) (s : State) :
    ((t.machine work s).onTop r).step =
      (t.machine work s).step.map (Machine.onTop r) (Outcome.onTop r) := by
  have hmachine : (t.machine work s).onTop r =
      (t.onTop r).machine (work.map (Work.onTop r)) (s.onTop r) := by
    cases t <;> rfl
  rw [hmachine, step_machine, step_machine, Task.instruction_onTop, perform_onTop]
  rfl

/-- A step does the same on top of remains. -/
theorem step_onTop (m : Machine) :
    (m.onTop r).step = m.step.map (Machine.onTop r) (Outcome.onTop r) := by
  obtain ⟨focus, work, s⟩ := m
  cases focus with
  | eval e => exact step_machine_onTop r (.eval e) work s
  | value v =>
    cases work with
    | nil => rfl
    | cons w work => exact step_machine_onTop r (.give v w) work s
  | fault f =>
    cases work with
    | nil => rfl
    | cons w work => cases w <;> rfl

/-- So does a run, in the same number of steps. -/
theorem run_onTop (fuel : Nat) (m : Machine) :
    (m.onTop r).run fuel = (m.run fuel).map (Outcome.onTop r) := by
  induction fuel generalizing m with
  | zero => rfl
  | succ fuel ih =>
    rw [run, run, step_onTop]
    cases m.step with
    | inl next => exact ih next
    | inr outcome => rfl

end Machine

/-! ### Programs -/

namespace State

variable (r : Remains)

theorem evaluate_onTop (fuel : Nat) (s : State) (e : Tree) :
    (s.onTop r).evaluate fuel e = (s.evaluate fuel e).map (Outcome.onTop r) := by
  simp only [evaluate, onTop_nextSite, Expr.marked_add]
  exact Machine.run_onTop r fuel
    (.start (e.marked s.nextSite).1 { s with nextSite := (e.marked s.nextSite).2 })

theorem executeFrom_onTop (fuel : Nat) (last : Value) (s : State) (program : List Tree) :
    (s.onTop r).executeFrom fuel (last.onTop r) program =
      (s.executeFrom fuel last program).map (Outcome.onTop r) := by
  induction program generalizing s last with
  | nil => rfl
  | cons e rest ih =>
    rw [executeFrom, executeFrom, evaluate_onTop]
    cases s.evaluate fuel e with
    | none => rfl
    | some outcome =>
      obtain ⟨result, t⟩ := outcome
      cases result with
      | error f => rfl
      | ok v => exact ih v t

/-- A source that is run gives the same on top of remains. -/
theorem runSource_onTop (fuel : Nat) (s : State) (file source : String) :
    (s.onTop r).runSource fuel file source =
      (s.runSource fuel file source).map (Outcome.onTop r) := by
  simp only [runSource, record_onTop]
  rw [← onTop_record r s (Reading.ofSource file source).records]
  cases (Reading.ofSource file source).program with
  | error f => rfl
  | ok program => exact executeFrom_onTop r fuel .void _ program

end State

end Interpreter

end ExprLang
