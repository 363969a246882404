import ExprLang.Token.Basic

/-!
Expressions. A tree's function definitions carry a mark: none in the trees that are read and
printed, and in the trees that are run the site by which function values are told apart. Blocks,
literals and conditions are expressions like any other.
-/

set_option autoImplicit false

namespace ExprLang

/-- The twelve binary operators. Hosts may build trees with other operator numbers, which have no
meaning and are kept as `other`. -/
inductive Operator
  | add
  | subtract
  | multiply
  | divide
  | equal
  | notEqual
  | less
  | lessEqual
  | greater
  | greaterEqual
  | and
  | or
  | other (code : Int)
  deriving DecidableEq, Repr

namespace Operator

/-- The twelve operators in the order of their numbers. -/
def known : List Operator :=
  [add, subtract, multiply, divide, equal, notEqual, less, lessEqual, greater, greaterEqual, and,
    or]

def symbol : Operator → String
  | add => "+"
  | subtract => "-"
  | multiply => "*"
  | divide => "/"
  | equal => "=="
  | notEqual => "!="
  | less => "<"
  | lessEqual => "<="
  | greater => ">"
  | greaterEqual => ">="
  | and => "&&"
  | or => "||"
  | other _ => "?"

def ofCode : Int → Operator
  | .ofNat n => known[n]?.getD (other n)
  | .negSucc n => other (.negSucc n)

def ofSymbol? (symbol : String) : Option Operator := known.find? fun op ↦ op.symbol = symbol

def ofKind? : Token.Kind → Option Operator
  | .plus => some add
  | .minus => some subtract
  | .multiply => some multiply
  | .divide => some divide
  | .equal => some equal
  | .notEqual => some notEqual
  | .less => some less
  | .lessEqual => some lessEqual
  | .greater => some greater
  | .greaterEqual => some greaterEqual
  | .and => some and
  | .or => some or
  | _ => none

/-- How tightly an operator binds; all levels group to the left. -/
def level : Operator → Nat
  | or => 0
  | and => 1
  | equal | notEqual => 2
  | less | lessEqual | greater | greaterEqual => 3
  | add | subtract => 4
  | multiply | divide | other _ => 5

end Operator

inductive Expr (μ : Type)
  | int (value : Int64)
  | binary (op : Operator) (left right : Expr μ)
  | var (name : String)
  | assign (name : String) (value : Expr μ)
  | block (items : List (Expr μ))
  | branch (condition onTrue : Expr μ) (onFalse : Option (Expr μ))
  | loop (condition body : Expr μ)
  | define (mark : μ) (name parameter : String) (body : Expr μ)
  | call (name : String) (argument : Expr μ)
  | array (elements : List (Expr μ))
  | access (base index : Expr μ)
  | assignCell (base index value : Expr μ)
  /-- The absence of an expression, in trees that a host leaves unfinished. -/
  | missing
  deriving Inhabited

/-- A tree as it is read and printed. -/
abbrev Tree := Expr Unit

/-- Tells function definitions apart. -/
abbrev Site := Nat

/-- A tree as it is run. -/
abbrev Code := Expr Site

namespace Expr

variable {μ : Type}

mutual

/-- The tree with its definitions numbered from `site` on, and the first number not used. -/
def marked (site : Site) : Expr μ → Code × Site
  | int value => (int value, site)
  | binary op left right =>
    let (l, site) := left.marked site
    let (r, site) := right.marked site
    (binary op l r, site)
  | var name => (var name, site)
  | assign name value =>
    let (v, site) := value.marked site
    (assign name v, site)
  | block items =>
    let (is, site) := markedList site items
    (block is, site)
  | branch condition onTrue onFalse =>
    let (c, site) := condition.marked site
    let (t, site) := onTrue.marked site
    let (f, site) := markedOption site onFalse
    (branch c t f, site)
  | loop condition body =>
    let (c, site) := condition.marked site
    let (b, site) := body.marked site
    (loop c b, site)
  | define _ name parameter body =>
    let (b, next) := body.marked (site + 1)
    (define site name parameter b, next)
  | call name argument =>
    let (a, site) := argument.marked site
    (call name a, site)
  | array elements =>
    let (es, site) := markedList site elements
    (array es, site)
  | access base index =>
    let (a, site) := base.marked site
    let (i, site) := index.marked site
    (access a i, site)
  | assignCell base index value =>
    let (a, site) := base.marked site
    let (i, site) := index.marked site
    let (v, site) := value.marked site
    (assignCell a i v, site)
  | missing => (missing, site)

def markedList (site : Site) : List (Expr μ) → List Code × Site
  | [] => ([], site)
  | e :: rest =>
    let (c, site) := e.marked site
    let (cs, site) := markedList site rest
    (c :: cs, site)

def markedOption (site : Site) : Option (Expr μ) → Option Code × Site
  | none => (none, site)
  | some e =>
    let (c, site) := e.marked site
    (some c, site)

end

mutual

/-- Some expression in the tree is missing, an absent `else` branch not counted. -/
def hasGap : Expr μ → Bool
  | int _ | var _ => false
  | binary _ left right => left.hasGap || right.hasGap
  | assign _ value => value.hasGap
  | block items => hasGapList items
  | branch condition onTrue onFalse => condition.hasGap || onTrue.hasGap || hasGapOption onFalse
  | loop condition body => condition.hasGap || body.hasGap
  | define _ _ _ body => body.hasGap
  | call _ argument => argument.hasGap
  | array elements => hasGapList elements
  | access base index => base.hasGap || index.hasGap
  | assignCell base index value => base.hasGap || index.hasGap || value.hasGap
  | missing => true

def hasGapList : List (Expr μ) → Bool
  | [] => false
  | e :: rest => e.hasGap || hasGapList rest

def hasGapOption : Option (Expr μ) → Bool
  | none => false
  | some e => e.hasGap

end

end Expr

end ExprLang
