import ExprLang.Interpreter.State

/-!
Evaluation as a machine. Its focus is an expression to evaluate, a value or a fault; beside it stand
the work that waits for the value, the most urgent first, and the interpreter's state. A step never
recurses, so the depth of calls is bounded by the call limit alone. A fault drops the waiting work,
except that every call it leaves restores its caller's scope.
-/

set_option autoImplicit false

namespace ExprLang.Interpreter

/-- Work that waits for a value. -/
inductive Work
  | rightOperand (op : Operator) (right : Code)
  | operate (op : Operator) (left : Value)
  | bind (name : String)
  | sequence (rest : List Code)
  | choose (onTrue : Code) (onFalse : Option Code)
  /-- Waits for a loop's condition; `last` is the value of the body so far. -/
  | test (condition body : Code) (last : Value)
  /-- Waits for a loop's body. -/
  | again (condition body : Code)
  | applyBuiltin (b : Builtin)
  | enter (f : Function)
  /-- Waits for a function's body, to return to the caller's scope. -/
  | leave (caller : Scope)
  /-- Waits for an element of an array literal; those before it are listed with the last first. -/
  | element (done : List Int64) (rest : List Code)
  | index (index : Code)
  | read (address : Nat)
  | cellIndex (index value : Code)
  | cellValue (address : Nat) (value : Code)
  | write (address : Nat) (index : Int64)

inductive Focus
  | eval (e : Code)
  | value (v : Value)
  | fault (f : Fault)

/-- How an evaluation ended. -/
abbrev Outcome := Except Fault Value × State

structure Machine where
  focus : Focus
  work : List Work
  state : State

namespace Machine

/-- A machine about to evaluate `e`. -/
def start (e : Code) (s : State) : Machine := ⟨.eval e, [], s⟩

/-- The focus of a result. -/
def ofResult : Except Fault Value → Focus
  | .ok v => .value v
  | .error f => .fault f

/-- Checks a loop's condition once more, if the limit allows it. -/
def beginCheck (condition body : Code) (last : Value) (work : List Work) (s : State) : Machine :=
  match s.countIteration with
  | (.ok (), s) => ⟨.eval condition, .test condition body last :: work, s⟩
  | (.error f, s) => ⟨.fault f, work, s⟩

/-- Begins the evaluation of `e`. -/
def begin (work : List Work) (s : State) : Code → Machine
  | .int n => ⟨.value (.int n), work, s⟩
  | .binary op left right => ⟨.eval left, .rightOperand op right :: work, s⟩
  | .var name =>
    match Builtin.ofName? name with
    | some b => ⟨.value (.builtin b.name), work, s⟩
    | none => ⟨ofResult (s.scope.get name), work, s⟩
  | .assign name value => ⟨.eval value, .bind name :: work, s⟩
  | .block [] => ⟨.value .void, work, s⟩
  | .block (e :: rest) => ⟨.eval e, .sequence rest :: work, s⟩
  | .branch condition onTrue onFalse => ⟨.eval condition, .choose onTrue onFalse :: work, s⟩
  | .loop condition body => beginCheck condition body .void work (s.enterLoop condition)
  | .define site name parameter body =>
    let f : Function := ⟨site, name, parameter, body⟩
    ⟨.value (.function f), work,
      (s.define f).note .debug fun _ ↦ "defined " ++ name ++ "(" ++ parameter ++ ")"⟩
  | .call name argument =>
    match Builtin.ofName? name with
    | some b => ⟨.eval argument, .applyBuiltin b :: work, s⟩
    | none =>
      match s.functions.get? name with
      | some f => ⟨.eval argument, .enter f :: work, s⟩
      | none => ⟨.fault (.runtime (.undefinedFunction name)), work, s⟩
  | .array [] =>
    let (address, heap) := s.heap.allocate #[]
    ⟨.value (.array address), work, { s with heap := heap }⟩
  | .array (e :: rest) => ⟨.eval e, .element [] rest :: work, s⟩
  | .access base index => ⟨.eval base, .index index :: work, s⟩
  | .assignCell base index value => ⟨.eval base, .cellIndex index value :: work, s⟩
  | .missing => ⟨.fault (.runtime .missingExpression), work, s⟩

/-- Gives the value `v` to the work that waited for it. -/
def resume (v : Value) (work : List Work) (s : State) : Work → Machine
  | .rightOperand op right => ⟨.eval right, .operate op v :: work, s⟩
  | .operate op left => ⟨ofResult (op.apply s.heap left v), work, s⟩
  | .bind name => ⟨.value v, work, s.bind name v⟩
  | .sequence [] => ⟨.value v, work, s⟩
  | .sequence (e :: rest) => ⟨.eval e, .sequence rest :: work, s⟩
  | .choose onTrue onFalse =>
    match v.asBit "if condition" with
    | .ok true => ⟨.eval onTrue, work, s⟩
    | .ok false =>
      match onFalse with
      | some e => ⟨.eval e, work, s⟩
      | none => ⟨.value .void, work, s⟩
    | .error f => ⟨.fault f, work, s⟩
  | .test condition body last =>
    match v.asBit "while condition" with
    | .ok true => ⟨.eval body, .again condition body :: work, s⟩
    | .ok false => ⟨.value last, work, s⟩
    | .error f => ⟨.fault f, work, s⟩
  | .again condition body => beginCheck condition body v work s
  | .applyBuiltin b =>
    let (result, s) := s.applyBuiltin b v
    ⟨ofResult result, work, s⟩
  | .enter f =>
    if s.limits.depth ≤ s.depth then ⟨.fault (.runtime (.callLimit s.limits.depth)), work, s⟩
    else ⟨.eval f.body, .leave s.scope :: work, s.enterCall f v⟩
  | .leave caller => ⟨.value v, work, s.leaveCall caller⟩
  | .element done rest =>
    match v with
    | .int n =>
      match rest with
      | e :: rest => ⟨.eval e, .element (n :: done) rest :: work, s⟩
      | [] =>
        let (address, heap) := s.heap.allocate (n :: done).reverse.toArray
        ⟨.value (.array address), work, { s with heap := heap }⟩
    | v => ⟨.fault (.typing (.element v.kind.name)), work, s⟩
  | .index index =>
    match v with
    | .array address => ⟨.eval index, .read address :: work, s⟩
    | v => ⟨.fault (.typing (.notArray v.kind.name)), work, s⟩
  | .read address =>
    match v.asInt "array access" with
    | .ok i => ⟨ofResult ((s.heap.read address i).map .int), work, s⟩
    | .error f => ⟨.fault f, work, s⟩
  | .cellIndex index value =>
    match v with
    | .array address => ⟨.eval index, .cellValue address value :: work, s⟩
    | v => ⟨.fault (.typing (.notArray v.kind.name)), work, s⟩
  | .cellValue address value =>
    match v.asInt "array element assignment" with
    | .ok i => ⟨.eval value, .write address i :: work, s⟩
    | .error f => ⟨.fault f, work, s⟩
  | .write address i =>
    match v with
    | .int n =>
      match s.heap.position address i with
      | .ok cell => ⟨.value (.int n), work, { s with heap := s.heap.setCell address cell n }⟩
      | .error f => ⟨.fault f, work, s⟩
    | v => ⟨.fault (.typing (.element v.kind.name)), work, s⟩

/-- What a fault does to the state as it passes a piece of work. -/
def unwind (s : State) : Work → State
  | .leave caller => s.leaveCall caller
  | _ => s

/-- One step, or the outcome of a machine that has nothing left to do. -/
def step : Machine → Machine ⊕ Outcome
  | ⟨.eval e, work, s⟩ => .inl (begin work s e)
  | ⟨.value v, w :: work, s⟩ => .inl (resume v work s w)
  | ⟨.value v, [], s⟩ => .inr (.ok v, s)
  | ⟨.fault f, w :: work, s⟩ => .inl ⟨.fault f, work, unwind s w⟩
  | ⟨.fault f, [], s⟩ => .inr (.error f, s)

/-- The outcome, if it is reached in fewer than `fuel` steps. -/
def run : (fuel : Nat) → Machine → Option Outcome
  | 0, _ => none
  | fuel + 1, m =>
    match m.step with
    | .inl m => m.run fuel
    | .inr outcome => some outcome

end Machine

end ExprLang.Interpreter
