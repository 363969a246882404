import ExprLang.Expr.Basic
import ExprLang.Token.Cursor
import ExprLang.Token.Scanner

/-!
Trees from tokens, one token at a time. What has been read so far is a stack of contexts, the
innermost first, and a focus: what may stand next, or the operand just finished. A token either
extends that operand, or closes contexts until one of them takes it. Reading is a fold, so what is
wrong with a token depends only on the tokens before it.
-/

set_option autoImplicit false

namespace ExprLang.Parser

/-- What surrounds the expression being read. Lists of finished parts have the last one first. -/
inductive Context
  | operator (op : Operator) (left : Tree)
  | assign (name : String)
  | assignCell (base index : Tree)
  | group
  | subscript (base : Tree)
  | argument (name : String)
  | elements (done : List Tree)
  | block (done : List Tree)
  | ifCondition
  | ifThen (condition : Tree)
  | ifElse (condition onTrue : Tree)
  | whileCondition
  | whileBody (condition : Tree)
  | functionBody (name parameter : String)

/-- The places before a condition or a function body where one kind of token must stand. The names
are those that the tokens carry, which are not needed before the whole header was read. -/
inductive Header
  | ifOpen
  | whileOpen
  | functionName
  | functionOpen (name : Option String)
  | functionParameter (name : Option String)
  | functionClose (name parameter : Option String)

inductive Focus
  /-- An operand must start here. -/
  | operand
  /-- After an opening bracket: an operand or the closing bracket. -/
  | element
  /-- Between the expressions of a block: an operand or the closing brace. -/
  | item
  | header (h : Header)
  /-- An operand stands here. A call takes no index; every other operand does. -/
  | value (tree : Tree) (indexable : Bool)

structure State where
  stack : List Context
  focus : Focus

/-- What a token does to an expression being read. -/
inductive Step
  | shift (s : State)
  /-- The expression ended before the token. -/
  | done (tree : Tree)

/-- Before the first token of an expression. -/
def State.start : State := ⟨[], .operand⟩

/-- The fault of `t` standing where one token of kind `wanted` must. -/
def wanting (wanted : Token.Kind) (note : String) (t : Token) : Fault :=
  .expected note wanted t.kind t.span

/-- What an operand can be, as messages list it. -/
def operandForms : List String :=
  ["number", "variable", "array", "func", "while", "if", "block", "parentheses"]

/-- Reads the first token of an operand. -/
def operand (stack : List Context) (t : Token) : Except Fault State :=
  match t.kind with
  | .lbracket => .ok ⟨.elements [] :: stack, .element⟩
  | .func => .ok ⟨stack, .header .functionName⟩
  | .while => .ok ⟨stack, .header .whileOpen⟩
  | .if => .ok ⟨stack, .header .ifOpen⟩
  | .lbrace => .ok ⟨.block [] :: stack, .item⟩
  | .int =>
    match t.int? with
    | some n => .ok ⟨stack, .value (.int n) true⟩
    | none => .error (.payload .int t)
  | .ident =>
    match t.ident? with
    | some name => .ok ⟨stack, .value (.var name) true⟩
    | none => .error (.payload .ident t)
  | .lparen => .ok ⟨.group :: stack, .operand⟩
  | kind => .error (.expectedOneOf operandForms kind t.span)

namespace Header

/-- The kind that must stand here, and the note if another does. -/
def wanted : Header → Token.Kind × String
  | ifOpen => (.lparen, "Expected '(' after 'if'")
  | whileOpen => (.lparen, "Expected '(' after 'while'")
  | functionName => (.ident, "Expected function name after 'func'")
  | functionOpen _ => (.lparen, "Expected '(' after function name")
  | functionParameter _ => (.ident, "Expected parameter name")
  | functionClose _ _ => (.rparen, "Expected ')' after function parameter")

def fault (h : Header) (t : Token) : Fault := wanting h.wanted.1 h.wanted.2 t

/-- The state after the wanted token. -/
def pass (h : Header) (stack : List Context) (t : Token) : Except Fault State :=
  match h with
  | ifOpen => .ok ⟨.ifCondition :: stack, .operand⟩
  | whileOpen => .ok ⟨.whileCondition :: stack, .operand⟩
  | functionName => .ok ⟨stack, .header (functionOpen t.ident?)⟩
  | functionOpen name => .ok ⟨stack, .header (functionParameter name)⟩
  | functionParameter name => .ok ⟨stack, .header (functionClose name t.ident?)⟩
  | functionClose (some name) (some parameter) =>
    .ok ⟨.functionBody name parameter :: stack, .operand⟩
  | functionClose none _ | functionClose _ none => .error (.emptyToken .ident .ident)

def feed (h : Header) (stack : List Context) (t : Token) : Except Fault State :=
  if t.kind = h.wanted.1 then h.pass stack t else .error (h.fault t)

end Header

namespace Context

/-- The tree made of a context and the expression in it, where no closing token is needed. -/
def plug? : Context → Tree → Option Tree
  | operator op left, e => some (.binary op left e)
  | assign name, e => some (.assign name e)
  | assignCell base index, e => some (.assignCell base index e)
  | ifThen condition, e => some (.branch condition e none)
  | ifElse condition onTrue, e => some (.branch condition onTrue (some e))
  | whileBody condition, e => some (.loop condition e)
  | functionBody name parameter, e => some (.define () name parameter e)
  | group, _ | subscript _, _ | argument _, _ | elements _, _ | block _, _ | ifCondition, _
  | whileCondition, _ => none

/-- The closing token a context waits for. The others wait for none, and read as the block. -/
def closer : Context → Token.Kind × String
  | group => (.rparen, "Expected closing parenthesis ')'")
  | subscript _ => (.rbracket, "Expected ']' after array index")
  | argument _ => (.rparen, "Expected ')' after function argument")
  | elements _ => (.rbracket, "Expected ']' at end of array literal")
  | ifCondition => (.rparen, "Expected ')' after if condition")
  | whileCondition => (.rparen, "Expected ')' after while condition")
  | _ => (.rbrace, "Expected '\x7d' at end of block")

end Context

/-- Closes binary operations that bind at least as tightly as `level`. -/
def reduce (level : Nat) : List Context → Tree → List Context × Tree
  | .operator op left :: rest, e =>
    if level ≤ op.level then reduce level rest (.binary op left e)
    else (.operator op left :: rest, e)
  | stack, e => (stack, e)

/-- An index sign after a finished `if`, `while` or `func`; any other token closes further. -/
def reopen (t : Token) (stack : List Context) (e : Tree) (next : Except Fault Step) :
    Except Fault Step :=
  if t.kind = .lbracket then .ok (.shift ⟨.subscript e :: stack, .operand⟩) else next

/-- Takes `t`, which does not extend `e`, to the innermost context that can use it. -/
def close (t : Token) : List Context → Tree → Except Fault Step
  | [], e => .ok (.done e)
  | .operator op left :: rest, e => close t rest (.binary op left e)
  | .assign name :: rest, e => close t rest (.assign name e)
  | .assignCell base index :: rest, e => close t rest (.assignCell base index e)
  | .ifThen condition :: rest, e =>
    if t.kind = .else then .ok (.shift ⟨.ifElse condition e :: rest, .operand⟩)
    else reopen t rest (.branch condition e none) (close t rest (.branch condition e none))
  | .ifElse condition onTrue :: rest, e =>
    reopen t rest (.branch condition onTrue (some e))
      (close t rest (.branch condition onTrue (some e)))
  | .whileBody condition :: rest, e =>
    reopen t rest (.loop condition e) (close t rest (.loop condition e))
  | .functionBody name parameter :: rest, e =>
    reopen t rest (.define () name parameter e) (close t rest (.define () name parameter e))
  | .block done :: rest, e =>
    match t.kind with
    | .semicolon => .ok (.shift ⟨.block (e :: done) :: rest, .item⟩)
    | .rbrace => .ok (.shift ⟨rest, .value (.block (e :: done).reverse) true⟩)
    | _ => (operand (.block (e :: done) :: rest) t).map .shift
  | .elements done :: rest, e =>
    match t.kind with
    | .comma => .ok (.shift ⟨.elements (e :: done) :: rest, .operand⟩)
    | .rbracket => .ok (.shift ⟨rest, .value (.array (e :: done).reverse) true⟩)
    | _ => .error (wanting .rbracket (Context.elements done).closer.2 t)
  | context :: rest, e =>
    if t.kind ≠ context.closer.1 then .error (wanting context.closer.1 context.closer.2 t)
    else match context with
      | .subscript base => .ok (.shift ⟨rest, .value (.access base e) true⟩)
      | .argument name => .ok (.shift ⟨rest, .value (.call name e) false⟩)
      | .ifCondition => .ok (.shift ⟨.ifThen e :: rest, .operand⟩)
      | .whileCondition => .ok (.shift ⟨.whileBody e :: rest, .operand⟩)
      | _ => .ok (.shift ⟨rest, .value e true⟩)

/-- Takes an assignment sign after `e`, which must be a variable or an array element. -/
def assignTo (t : Token) (stack : List Context) : Tree → Except Fault Step
  | .var name => .ok (.shift ⟨.assign name :: stack, .operand⟩)
  | .access base index => .ok (.shift ⟨.assignCell base index :: stack, .operand⟩)
  | _ => .error (.assignmentTarget t.span)

/-- Reads the token after the operand `e`. -/
def afterOperand (stack : List Context) (e : Tree) (indexable : Bool) (t : Token) :
    Except Fault Step :=
  match t.kind, e with
  | .lbracket, _ =>
    if indexable then .ok (.shift ⟨.subscript e :: stack, .operand⟩) else close t stack e
  | .lparen, .var name => .ok (.shift ⟨.argument name :: stack, .operand⟩)
  | .assign, _ =>
    let (stack, e) := reduce 0 stack e
    assignTo t stack e
  | kind, _ =>
    match Operator.ofKind? kind with
    | some op =>
      let (stack, e) := reduce op.level stack e
      .ok (.shift ⟨.operator op e :: stack, .operand⟩)
    | none => close t stack e

namespace State

/-- Reads one token that is not the last one. -/
def feed (s : State) (t : Token) : Except Fault Step :=
  match s.focus, s.stack with
  | .element, .elements _ :: rest =>
    if t.kind = .rbracket then .ok (.shift ⟨rest, .value (.array []) true⟩)
    else (operand s.stack t).map .shift
  | .item, .block done :: rest =>
    if t.kind = .rbrace then .ok (.shift ⟨rest, .value (.block done.reverse) true⟩)
    else (operand s.stack t).map .shift
  | .operand, _ | .element, _ | .item, _ => (operand s.stack t).map .shift
  | .header h, _ => (h.feed s.stack t).map .shift
  | .value e indexable, _ => afterOperand s.stack e indexable t

/-- The expression around `e` when the input ends at `t`. -/
def closeAll (t : Token) : List Context → Tree → Except Fault Tree
  | [], e => .ok e
  | context :: rest, e =>
    match context.plug? e with
    | some e => closeAll t rest e
    | none => .error (wanting context.closer.1 context.closer.2 t)

/-- The expression read when the input ends at `t`. -/
def finish (s : State) (t : Token) : Except Fault Tree :=
  match s.focus with
  | .value e _ => closeAll t s.stack e
  | .header h => .error (h.fault t)
  | .item => .error (wanting (Context.block []).closer.1 (Context.block []).closer.2 t)
  | .operand | .element => .error (.expectedOneOf operandForms t.kind t.span)

end State

/-- A program being read: its finished expressions, the last one first, and the current one. -/
structure Progress where
  done : List Tree
  current : Option State

namespace Progress

def start : Progress := ⟨[], none⟩

/-- Reads the first token of an expression. -/
def begin (done : List Tree) (t : Token) : Except Fault Progress :=
  (operand [] t).map fun s ↦ ⟨done, some s⟩

/-- Reads one token. A semicolon may follow an expression, and so may the next expression. -/
def feed (p : Progress) (t : Token) : Except Fault Progress :=
  match p.current with
  | none => begin p.done t
  | some s =>
    match s.feed t with
    | .error fault => .error fault
    | .ok (.shift s) => .ok { p with current := some s }
    | .ok (.done e) =>
      if t.kind = .semicolon then .ok ⟨e :: p.done, none⟩ else begin (e :: p.done) t

/-- The program when the input ends at `t`. -/
def finish (p : Progress) (t : Token) : Except Fault (List Tree) :=
  match p.current with
  | none => .ok p.done.reverse
  | some s => (s.finish t).map fun e ↦ (e :: p.done).reverse

end Progress

/-- The program from the cursor to the end. -/
def program (c : Token.Cursor) : Except Fault (List Tree) :=
  (c.ahead.foldlM Progress.feed .start).bind (·.finish c.last)

/-- One expression from the cursor, and the cursor behind it. -/
def expression (c : Token.Cursor) : Except Fault (Tree × Token.Cursor) :=
  readOn .start c.ahead c.passed
where
  /-- Reads `ahead` in state `s`, with `passed` behind. -/
  readOn (s : State) : List Token → List Token → Except Fault (Tree × Token.Cursor)
    | [], passed => (s.finish c.last).map fun e ↦ (e, ⟨passed, [], c.last⟩)
    | t :: ahead, passed =>
      match s.feed t with
      | .error fault => .error fault
      | .ok (.shift s) => readOn s ahead (t :: passed)
      | .ok (.done e) => .ok (e, ⟨passed, t :: ahead, c.last⟩)

/-- The program that `source` spells. -/
def parse (file source : String) : Except Fault (List Tree) :=
  (Token.scan file source).bind fun tokens ↦ program (.ofList tokens)

end ExprLang.Parser
