import ExprLang.Interpreter.Session

/-!
What a step does, said once. A step takes up a task: an expression, or a value with the work that
waited for it. What is to be done then depends on the task alone (`Task.instruction`), and only how
it turns out depends on the state (`Instruction.perform`). A task is split into a part that comes
first and work that needs the others (`Splits`), or it is settled by a single action (`Settles`), or
it belongs to a loop or to a call (`Issues`). What holds of all steps therefore takes one look at
each of the instructions and not at each form of expressions and of work (`transition_of_step`).
-/

set_option autoImplicit false

namespace ExprLang.Interpreter

/-- What a step takes up. -/
inductive Task
  | eval (e : Code)
  | give (v : Value) (w : Work)

/-- What is done at once, without further evaluation. -/
inductive Action
  /-- There is a result already. -/
  | result (r : Except Fault Value)
  | lookUp (name : String)
  | bind (name : String) (v : Value)
  | define (f : Function)
  | operate (op : Operator) (left right : Value)
  | builtin (b : Builtin) (argument : Value)
  | allocate (cells : Array Int64)
  | read (address : Nat) (index : Int64)
  | write (address : Nat) (index value : Int64)

/-- How an evaluation goes on. -/
inductive Instruction
  | settle (a : Action)
  /-- Evaluates `e`, while `w` waits for its value. -/
  | push (e : Code) (w : Work)
  /-- Evaluates `e`, whose value is that of the whole. -/
  | goOn (e : Code)
  /-- Finds the function that is called, and evaluates the argument. -/
  | find (name : String) (argument : Code)
  | enter (f : Function) (argument : Value)
  | leave (caller : Scope) (v : Value)
  | enterLoop (condition body : Code)
  /-- Goes on with the body, as the condition held. -/
  | turn (condition body : Code)
  | check (condition body : Code) (last : Value)

namespace Task

/-- What is in the focus when the task is taken up. -/
def focus : Task → Focus
  | eval e => .eval e
  | give v _ => .value v

/-- The work that the task uses up. -/
def work : Task → List Work
  | eval _ => []
  | give _ w => [w]

/-- The machine whose next step takes up the task. -/
def machine (t : Task) (rest : List Work) (s : State) : Machine := ⟨t.focus, t.work ++ rest, s⟩

end Task

/-- What is to be done with an expression. -/
def Instruction.ofCode : Code → Instruction
  | .int n => .settle (.result (.ok (.int n)))
  | .binary op left right => .push left (.rightOperand op right)
  | .var name =>
    match Builtin.ofName? name with
    | some b => .settle (.result (.ok (.builtin b.name)))
    | none => .settle (.lookUp name)
  | .assign name value => .push value (.bind name)
  | .block [] => .settle (.result (.ok .void))
  | .block (e :: rest) => .push e (.sequence rest)
  | .branch condition onTrue onFalse => .push condition (.choose onTrue onFalse)
  | .loop condition body => .enterLoop condition body
  | .define site name parameter body => .settle (.define ⟨site, name, parameter, body⟩)
  | .call name argument =>
    match Builtin.ofName? name with
    | some b => .push argument (.applyBuiltin b)
    | none => .find name argument
  | .array [] => .settle (.allocate #[])
  | .array (e :: rest) => .push e (.element [] rest)
  | .access base index => .push base (.index index)
  | .assignCell base index value => .push base (.cellIndex index value)
  | .missing => .settle (.result (.error (.runtime .missingExpression)))

/-- What is to be done with work that gets its value. -/
def Instruction.ofWork (v : Value) : Work → Instruction
  | .rightOperand op right => .push right (.operate op v)
  | .operate op left => .settle (.operate op left v)
  | .bind name => .settle (.bind name v)
  | .sequence [] => .settle (.result (.ok v))
  | .sequence (e :: rest) => .push e (.sequence rest)
  | .choose onTrue onFalse =>
    match v.asBit "if condition", onFalse with
    | .ok true, _ => .goOn onTrue
    | .ok false, some e => .goOn e
    | .ok false, none => .settle (.result (.ok .void))
    | .error f, _ => .settle (.result (.error f))
  | .test condition body last =>
    match v.asBit "while condition" with
    | .ok true => .turn condition body
    | .ok false => .settle (.result (.ok last))
    | .error f => .settle (.result (.error f))
  | .again condition body => .check condition body v
  | .applyBuiltin b => .settle (.builtin b v)
  | .enter f => .enter f v
  | .leave caller => .leave caller v
  | .element done rest =>
    match v, rest with
    | .int n, e :: rest => .push e (.element (n :: done) rest)
    | .int n, [] => .settle (.allocate (n :: done).reverse.toArray)
    | v, _ => .settle (.result (.error (.typing (.element v.kind.name))))
  | .index e =>
    match v with
    | .array address => .push e (.read address)
    | v => .settle (.result (.error (.typing (.notArray v.kind.name))))
  | .read address =>
    match v.asInt "array access" with
    | .ok i => .settle (.read address i)
    | .error f => .settle (.result (.error f))
  | .cellIndex e value =>
    match v with
    | .array address => .push e (.cellValue address value)
    | v => .settle (.result (.error (.typing (.notArray v.kind.name))))
  | .cellValue address value =>
    match v.asInt "array element assignment" with
    | .ok i => .push value (.write address i)
    | .error f => .settle (.result (.error f))
  | .write address i =>
    match v with
    | .int n => .settle (.write address i n)
    | v => .settle (.result (.error (.typing (.element v.kind.name))))

def Task.instruction : Task → Instruction
  | eval e => .ofCode e
  | give v w => .ofWork v w

/-- The result of an action, and the state it leaves. -/
def Action.act (s : State) : Action → Except Fault Value × State
  | result r => (r, s)
  | lookUp name => (s.scope.get name, s)
  | bind name v => (.ok v, s.bind name v)
  | define f =>
    (.ok (.function f),
      (s.define f).note .debug fun _ ↦ "defined " ++ f.name ++ "(" ++ f.parameter ++ ")")
  | operate op left right => (op.apply s.heap left right, s)
  | builtin b argument => s.applyBuiltin b argument
  | allocate cells =>
    (.ok (.array (s.heap.allocate cells).1), { s with heap := (s.heap.allocate cells).2 })
  | read address index => ((s.heap.read address index).map .int, s)
  | write address index value =>
    match s.heap.position address index with
    | .ok cell => (.ok (.int value), { s with heap := s.heap.setCell address cell value })
    | .error f => (.error f, s)

/-- The machine after an instruction, where `rest` waits below. -/
def Instruction.perform (rest : List Work) (s : State) : Instruction → Machine
  | settle a => ⟨Machine.ofResult (a.act s).1, rest, (a.act s).2⟩
  | push e w => ⟨.eval e, w :: rest, s⟩
  | goOn e => ⟨.eval e, rest, s⟩
  | find name argument =>
    match s.functions.get? name with
    | some f => ⟨.eval argument, .enter f :: rest, s⟩
    | none => ⟨.fault (.runtime (.undefinedFunction name)), rest, s⟩
  | enter f argument =>
    if s.limits.depth ≤ s.depth then ⟨.fault (.runtime (.callLimit s.limits.depth)), rest, s⟩
    else ⟨.eval f.body, .leave s.scope :: rest, s.enterCall f argument⟩
  | leave caller v => ⟨.value v, rest, s.leaveCall caller⟩
  | enterLoop condition body => Machine.beginCheck condition body .void rest (s.enterLoop condition)
  | turn condition body => ⟨.eval body, .again condition body :: rest, s⟩
  | check condition body last => Machine.beginCheck condition body last rest s

namespace Machine

theorem begin_eq (rest : List Work) (s : State) (e : Code) :
    begin rest s e = (Instruction.ofCode e).perform rest s := by
  cases e with
  | var name | call name argument =>
    simp only [begin, Instruction.ofCode]
    cases Builtin.ofName? name <;> rfl
  | block items | array items => cases items <;> rfl
  | _ => rfl

theorem resume_eq (v : Value) (rest : List Work) (s : State) (w : Work) :
    resume v rest s w = (Instruction.ofWork v w).perform rest s := by
  cases w with
  | sequence items => cases items <;> rfl
  | choose onTrue onFalse =>
    simp only [resume, Instruction.ofWork]
    cases v.asBit "if condition" with
    | error f => rfl
    | ok holds => cases holds <;> cases onFalse <;> rfl
  | test condition body last =>
    simp only [resume, Instruction.ofWork]
    cases v.asBit "while condition" with
    | error f => rfl
    | ok holds => cases holds <;> rfl
  | element done items => cases v <;> cases items <;> rfl
  | index | cellIndex => cases v <;> rfl
  | read | cellValue =>
    simp only [resume, Instruction.ofWork]
    cases v.asInt _ <;> rfl
  | write address i =>
    cases v with
    | int n =>
      simp only [resume, Instruction.ofWork, Instruction.perform, Action.act]
      cases s.heap.position address i <;> rfl
    | _ => rfl
  | _ => rfl

/-- The step that takes up a task. -/
theorem step_machine (t : Task) (rest : List Work) (s : State) :
    (t.machine rest s).step = .inl (t.instruction.perform rest s) := by
  cases t with
  | eval e => exact congrArg Sum.inl (begin_eq rest s e)
  | give v w => exact congrArg Sum.inl (resume_eq v rest s w)

/-- A machine carries out what a task leads to, or a fault passes a piece of work. -/
inductive Transition : Machine → Machine → Prop
  | perform (t : Task) (rest : List Work) (s : State) :
      Transition (t.machine rest s) (t.instruction.perform rest s)
  | pass (f : Fault) (w : Work) (rest : List Work) (s : State) :
      Transition ⟨.fault f, w :: rest, s⟩ ⟨.fault f, rest, unwind s w⟩

theorem transition_of_step {m m' : Machine} (h : m.step = .inl m') : Transition m m' := by
  obtain ⟨focus, work, s⟩ := m
  cases focus with
  | eval e =>
    cases h
    exact begin_eq work s e ▸ .perform (.eval e) work s
  | value v =>
    cases work with
    | nil => contradiction
    | cons w work =>
      cases h
      exact resume_eq v work s w ▸ .perform (.give v w) work s
  | fault f =>
    cases work with
    | nil => contradiction
    | cons w work =>
      cases h
      exact .pass f w work s

end Machine

/-! ### What can become of a task -/

/-- The task is taken apart: `e` comes first, and `w` needs what else there is. -/
inductive Splits : Task → Code → Work → Prop
  | binary (op : Operator) (left right : Code) :
      Splits (.eval (.binary op left right)) left (.rightOperand op right)
  | assign (name : String) (value : Code) : Splits (.eval (.assign name value)) value (.bind name)
  | block (e : Code) (rest : List Code) : Splits (.eval (.block (e :: rest))) e (.sequence rest)
  | branch (condition onTrue : Code) (onFalse : Option Code) :
      Splits (.eval (.branch condition onTrue onFalse)) condition (.choose onTrue onFalse)
  | call (name : String) (argument : Code) (b : Builtin) :
      Splits (.eval (.call name argument)) argument (.applyBuiltin b)
  | array (e : Code) (rest : List Code) : Splits (.eval (.array (e :: rest))) e (.element [] rest)
  | access (base index : Code) : Splits (.eval (.access base index)) base (.index index)
  | assignCell (base index value : Code) :
      Splits (.eval (.assignCell base index value)) base (.cellIndex index value)
  | rightOperand (v : Value) (op : Operator) (right : Code) :
      Splits (.give v (.rightOperand op right)) right (.operate op v)
  | sequence (v : Value) (e : Code) (rest : List Code) :
      Splits (.give v (.sequence (e :: rest))) e (.sequence rest)
  | element (n : Int64) (done : List Int64) (e : Code) (rest : List Code) :
      Splits (.give (.int n) (.element done (e :: rest))) e (.element (n :: done) rest)
  | index (address : Nat) (e : Code) : Splits (.give (.array address) (.index e)) e (.read address)
  | cellIndex (address : Nat) (e value : Code) :
      Splits (.give (.array address) (.cellIndex e value)) e (.cellValue address value)
  | cellValue (v : Value) (address : Nat) (value : Code) (i : Int64) :
      Splits (.give v (.cellValue address value)) value (.write address i)

/-- Work that needs a value of a certain kind. -/
def Work.isPicky : Work → Bool
  | choose .. | test .. | element .. | .index _ | read _ | cellIndex .. | cellValue .. | write .. =>
    true
  | _ => false

/-- The task is settled by an action. -/
inductive Settles : Task → Action → Prop
  | int (n : Int64) : Settles (.eval (.int n)) (.result (.ok (.int n)))
  | builtin (name : String) (b : Builtin) :
      Settles (.eval (.var name)) (.result (.ok (.builtin b.name)))
  | lookUp {name : String} (h : Builtin.ofName? name = none) :
      Settles (.eval (.var name)) (.lookUp name)
  | emptyBlock : Settles (.eval (.block [])) (.result (.ok .void))
  | emptyArray : Settles (.eval (.array [])) (.allocate #[])
  | define (site : Site) (name parameter : String) (body : Code) :
      Settles (.eval (.define site name parameter body)) (.define ⟨site, name, parameter, body⟩)
  | missing : Settles (.eval .missing) (.result (.error (.runtime .missingExpression)))
  | operate (v : Value) (op : Operator) (left : Value) :
      Settles (.give v (.operate op left)) (.operate op left v)
  | bind (v : Value) (name : String) : Settles (.give v (.bind name)) (.bind name v)
  | endBlock (v : Value) : Settles (.give v (.sequence [])) (.result (.ok v))
  | noElse (v : Value) (onTrue : Code) :
      Settles (.give v (.choose onTrue none)) (.result (.ok .void))
  | endLoop (v : Value) (condition body : Code) (last : Value) :
      Settles (.give v (.test condition body last)) (.result (.ok last))
  | applyBuiltin (v : Value) (b : Builtin) : Settles (.give v (.applyBuiltin b)) (.builtin b v)
  | array (n : Int64) (done : List Int64) :
      Settles (.give (.int n) (.element done [])) (.allocate (n :: done).reverse.toArray)
  | read (v : Value) (address : Nat) (i : Int64) :
      Settles (.give v (.read address)) (.read address i)
  | write (n : Int64) (address : Nat) (i : Int64) :
      Settles (.give (.int n) (.write address i)) (.write address i n)
  | mistyped (v : Value) {w : Work} (hw : w.isPicky = true) (cause : TypingCause) :
      Settles (.give v w) (.result (.error (.typing cause)))

/-- The instructions that a task can lead to. -/
inductive Issues : Task → Instruction → Prop
  | settle {t : Task} {a : Action} (h : Settles t a) : Issues t (.settle a)
  | push {t : Task} {e : Code} {w : Work} (h : Splits t e w) : Issues t (.push e w)
  | onTrue (v : Value) (onTrue : Code) (onFalse : Option Code) :
      Issues (.give v (.choose onTrue onFalse)) (.goOn onTrue)
  | onFalse (v : Value) (onTrue onFalse : Code) :
      Issues (.give v (.choose onTrue (some onFalse))) (.goOn onFalse)
  | find {name : String} (h : Builtin.ofName? name = none) (argument : Code) :
      Issues (.eval (.call name argument)) (.find name argument)
  | enter (v : Value) (f : Function) : Issues (.give v (.enter f)) (.enter f v)
  | leave (v : Value) (caller : Scope) : Issues (.give v (.leave caller)) (.leave caller v)
  | enterLoop (condition body : Code) :
      Issues (.eval (.loop condition body)) (.enterLoop condition body)
  | turn (v : Value) (condition body : Code) (last : Value) :
      Issues (.give v (.test condition body last)) (.turn condition body)
  | check (v : Value) (condition body : Code) :
      Issues (.give v (.again condition body)) (.check condition body v)

theorem exists_typing_of_asBit {v : Value} {operation : String} {f : Fault}
    (h : v.asBit operation = .error f) : ∃ cause, f = .typing cause := by
  cases v with
  | bit => contradiction
  | _ => exact ⟨_, (Except.error.inj h).symm⟩

theorem exists_typing_of_asInt {v : Value} {operation : String} {f : Fault}
    (h : v.asInt operation = .error f) : ∃ cause, f = .typing cause := by
  cases v with
  | int | bit => contradiction
  | _ => exact ⟨_, (Except.error.inj h).symm⟩

theorem issues_ofCode (e : Code) : Issues (.eval e) (.ofCode e) := by
  cases e with
  | int n => exact .settle (.int n)
  | binary op left right => exact .push (.binary op left right)
  | var name =>
    simp only [Instruction.ofCode]
    cases h : Builtin.ofName? name with
    | some b => exact .settle (.builtin name b)
    | none => exact .settle (.lookUp h)
  | assign name value => exact .push (.assign name value)
  | block items =>
    cases items with
    | nil => exact .settle .emptyBlock
    | cons e rest => exact .push (.block e rest)
  | branch condition onTrue onFalse => exact .push (.branch condition onTrue onFalse)
  | loop condition body => exact .enterLoop condition body
  | define site name parameter body => exact .settle (.define site name parameter body)
  | call name argument =>
    simp only [Instruction.ofCode]
    cases h : Builtin.ofName? name with
    | some b => exact .push (.call name argument b)
    | none => exact .find h argument
  | array elements =>
    cases elements with
    | nil => exact .settle .emptyArray
    | cons e rest => exact .push (.array e rest)
  | access base index => exact .push (.access base index)
  | assignCell base index value => exact .push (.assignCell base index value)
  | missing => exact .settle .missing

theorem issues_ofWork (v : Value) (w : Work) : Issues (.give v w) (.ofWork v w) := by
  cases w with
  | rightOperand op right => exact .push (.rightOperand v op right)
  | operate op left => exact .settle (.operate v op left)
  | bind name => exact .settle (.bind v name)
  | sequence rest =>
    cases rest with
    | nil => exact .settle (.endBlock v)
    | cons e rest => exact .push (.sequence v e rest)
  | choose onTrue onFalse =>
    simp only [Instruction.ofWork]
    cases h : v.asBit "if condition" with
    | error f =>
      obtain ⟨cause, rfl⟩ := exists_typing_of_asBit h
      exact .settle (.mistyped v rfl cause)
    | ok holds =>
      cases holds with
      | true => exact .onTrue v onTrue onFalse
      | false =>
        cases onFalse with
        | none => exact .settle (.noElse v onTrue)
        | some other => exact .onFalse v onTrue other
  | test condition body last =>
    simp only [Instruction.ofWork]
    cases h : v.asBit "while condition" with
    | error f =>
      obtain ⟨cause, rfl⟩ := exists_typing_of_asBit h
      exact .settle (.mistyped v rfl cause)
    | ok holds =>
      cases holds with
      | true => exact .turn v condition body last
      | false => exact .settle (.endLoop v condition body last)
  | again condition body => exact .check v condition body
  | applyBuiltin b => exact .settle (.applyBuiltin v b)
  | enter f => exact .enter v f
  | leave caller => exact .leave v caller
  | element done rest =>
    cases v with
    | int n =>
      cases rest with
      | nil => exact .settle (.array n done)
      | cons e rest => exact .push (.element n done e rest)
    | _ => exact .settle (.mistyped _ rfl _)
  | index e =>
    cases v with
    | array address => exact .push (.index address e)
    | _ => exact .settle (.mistyped _ rfl _)
  | read address =>
    simp only [Instruction.ofWork]
    cases h : v.asInt "array access" with
    | ok i => exact .settle (.read v address i)
    | error f =>
      obtain ⟨cause, rfl⟩ := exists_typing_of_asInt h
      exact .settle (.mistyped v rfl cause)
  | cellIndex e value =>
    cases v with
    | array address => exact .push (.cellIndex address e value)
    | _ => exact .settle (.mistyped _ rfl _)
  | cellValue address value =>
    simp only [Instruction.ofWork]
    cases h : v.asInt "array element assignment" with
    | ok i => exact .push (.cellValue v address value i)
    | error f =>
      obtain ⟨cause, rfl⟩ := exists_typing_of_asInt h
      exact .settle (.mistyped v rfl cause)
  | write address i =>
    cases v with
    | int n => exact .settle (.write n address i)
    | _ => exact .settle (.mistyped _ rfl _)

theorem Task.issues (t : Task) : Issues t t.instruction := by
  cases t with
  | eval e => exact issues_ofCode e
  | give v w => exact issues_ofWork v w

end ExprLang.Interpreter
