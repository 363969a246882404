import ExprLang.Expr.Basic
import ExprLang.Proofs.Token.Marks

/-!
The shape of trees: induction over them, the integers they hold, which of them can be written, and
the names they bind when they are evaluated.
-/

set_option autoImplicit false

namespace ExprLang

/-- The token that an operator is written with; operators without a meaning have none. -/
def Operator.kind : Operator → Token.Kind
  | add => .plus
  | subtract => .minus
  | multiply => .multiply
  | divide => .divide
  | equal => .equal
  | notEqual => .notEqual
  | less => .less
  | lessEqual => .lessEqual
  | greater => .greater
  | greaterEqual => .greaterEqual
  | and => .and
  | or => .or
  | other code => .unknown code

namespace Expr

variable {μ : Type}

/-- Induction over trees, where a list of expressions or an optional one has the property if each
expression in it does. -/
@[induction_eliminator]
theorem inductionOn {motive : Expr μ → Prop}
    (int : ∀ value, motive (.int value))
    (binary : ∀ op left right, motive left → motive right → motive (.binary op left right))
    (var : ∀ name, motive (.var name))
    (assign : ∀ name value, motive value → motive (.assign name value))
    (block : ∀ items, (∀ e ∈ items, motive e) → motive (.block items))
    (branch : ∀ condition onTrue onFalse, motive condition → motive onTrue →
      (∀ e ∈ onFalse, motive e) → motive (.branch condition onTrue onFalse))
    (loop : ∀ condition body, motive condition → motive body → motive (.loop condition body))
    (define : ∀ mark name parameter body, motive body → motive (.define mark name parameter body))
    (call : ∀ name argument, motive argument → motive (.call name argument))
    (array : ∀ elements, (∀ e ∈ elements, motive e) → motive (.array elements))
    (access : ∀ base index, motive base → motive index → motive (.access base index))
    (assignCell : ∀ base index value, motive base → motive index → motive value →
      motive (.assignCell base index value))
    (missing : motive .missing) (e : Expr μ) : motive e :=
  @Expr.rec μ motive (fun items ↦ ∀ e ∈ items, motive e) (fun e? ↦ ∀ e ∈ e?, motive e)
    int binary var assign block branch loop define call array access assignCell missing
    (by simp) (fun _ _ he hrest ↦ List.forall_mem_cons.mpr ⟨he, hrest⟩)
    (by simp) (fun _ he e' h ↦ Option.mem_some_iff.mp h ▸ he) e

mutual

/-- The integers written in a tree. -/
def literals : Expr μ → List Int64
  | int value => [value]
  | binary _ left right => left.literals ++ right.literals
  | var _ => []
  | assign _ value => value.literals
  | block items => literalsList items
  | branch condition onTrue onFalse =>
    condition.literals ++ onTrue.literals ++ literalsOption onFalse
  | loop condition body => condition.literals ++ body.literals
  | define _ _ _ body => body.literals
  | call _ argument => argument.literals
  | array elements => literalsList elements
  | access base index => base.literals ++ index.literals
  | assignCell base index value => base.literals ++ index.literals ++ value.literals
  | missing => []

def literalsList : List (Expr μ) → List Int64
  | [] => []
  | e :: rest => e.literals ++ literalsList rest

def literalsOption : Option (Expr μ) → List Int64
  | none => []
  | some e => e.literals

end

mutual

/-- Every name in the tree can be written, every operator is one of the twelve, and no expression
is missing, an absent `else` branch not counted. -/
def isValid : Expr μ → Bool
  | int _ => true
  | binary op left right => Operator.known.contains op && left.isValid && right.isValid
  | var name => Token.isName name
  | assign name value => Token.isName name && value.isValid
  | block items => isValidList items
  | branch condition onTrue onFalse =>
    condition.isValid && onTrue.isValid && isValidOption onFalse
  | loop condition body => condition.isValid && body.isValid
  | define _ name parameter body => Token.isName name && Token.isName parameter && body.isValid
  | call name argument => Token.isName name && argument.isValid
  | array elements => isValidList elements
  | access base index => base.isValid && index.isValid
  | assignCell base index value => base.isValid && index.isValid && value.isValid
  | missing => false

def isValidList : List (Expr μ) → Bool
  | [] => true
  | e :: rest => e.isValid && isValidList rest

def isValidOption : Option (Expr μ) → Bool
  | none => true
  | some e => e.isValid

end

mutual

/-- The names that a tree binds in the frame it is evaluated in. The body of a definition is
evaluated in frames of its own. -/
def assigned : Expr μ → List String
  | int _ | var _ | missing => []
  | binary _ left right => left.assigned ++ right.assigned
  | assign name value => name :: value.assigned
  | block items => assignedList items
  | branch condition onTrue onFalse =>
    condition.assigned ++ onTrue.assigned ++ assignedOption onFalse
  | loop condition body => condition.assigned ++ body.assigned
  | define _ name _ _ => [name]
  | call _ argument => argument.assigned
  | array elements => assignedList elements
  | access base index => base.assigned ++ index.assigned
  | assignCell base index value => base.assigned ++ index.assigned ++ value.assigned

def assignedList : List (Expr μ) → List String
  | [] => []
  | e :: rest => e.assigned ++ assignedList rest

def assignedOption : Option (Expr μ) → List String
  | none => []
  | some e => e.assigned

end

theorem literalsList_eq (items : List (Expr μ)) : literalsList items = items.flatMap literals := by
  induction items with
  | nil => rfl
  | cons e rest ih => rw [literalsList, ih, List.flatMap_cons]

theorem isValidList_eq (items : List (Expr μ)) : isValidList items = items.all isValid := by
  induction items with
  | nil => rfl
  | cons e rest ih => rw [isValidList, ih, List.all_cons]

theorem assignedList_markedList {items : List (Expr μ)}
    (h : ∀ e ∈ items, ∀ site, (e.marked site).1.assigned = e.assigned) (site : Site) :
    assignedList (markedList site items).1 = assignedList items := by
  induction items generalizing site with
  | nil => rfl
  | cons e rest ih =>
    have hrest := ih fun e he ↦ h e (List.mem_cons_of_mem _ he)
    simp [markedList, assignedList, h e List.mem_cons_self, hrest]

/-- Numbering the definitions of a tree leaves the names it binds alone. -/
theorem assigned_marked (e : Expr μ) (site : Site) : (e.marked site).1.assigned = e.assigned := by
  induction e generalizing site with
  | int | var | missing => rfl
  | define => simp [marked, assigned]
  | assign _ _ hvalue => simp [marked, assigned, hvalue]
  | call _ _ hargument => simp [marked, assigned, hargument]
  | binary _ _ _ hleft hright => simp [marked, assigned, hleft, hright]
  | loop _ _ hcondition hbody => simp [marked, assigned, hcondition, hbody]
  | access _ _ hbase hindex => simp [marked, assigned, hbase, hindex]
  | assignCell _ _ _ hbase hindex hvalue => simp [marked, assigned, hbase, hindex, hvalue]
  | branch _ _ onFalse hcondition hTrue hFalse =>
    cases onFalse with
    | none => simp [marked, markedOption, assigned, assignedOption, hcondition, hTrue]
    | some other =>
      simp [marked, markedOption, assigned, assignedOption, hcondition, hTrue, hFalse other rfl]
  | block items hitems => exact assignedList_markedList hitems site
  | array elements helements => exact assignedList_markedList helements site

theorem all_markedList {p : Code → Bool} {q : Expr μ → Bool} {items : List (Expr μ)}
    (h : ∀ e ∈ items, ∀ site, p (e.marked site).1 = q e) (site : Site) :
    (markedList site items).1.all p = items.all q := by
  induction items generalizing site with
  | nil => rfl
  | cons e rest ih =>
    have hrest := ih fun e he ↦ h e (List.mem_cons_of_mem _ he)
    simp [markedList, h e List.mem_cons_self, hrest]

/-- Numbering the definitions of a tree leaves it valid or invalid. -/
theorem isValid_marked (e : Expr μ) (site : Site) : (e.marked site).1.isValid = e.isValid := by
  induction e generalizing site with
  | int | var | missing => rfl
  | define _ _ _ _ hbody => simp [marked, isValid, hbody]
  | assign _ _ hvalue => simp [marked, isValid, hvalue]
  | call _ _ hargument => simp [marked, isValid, hargument]
  | binary _ _ _ hleft hright => simp [marked, isValid, hleft, hright]
  | loop _ _ hcondition hbody => simp [marked, isValid, hcondition, hbody]
  | access _ _ hbase hindex => simp [marked, isValid, hbase, hindex]
  | assignCell _ _ _ hbase hindex hvalue => simp [marked, isValid, hbase, hindex, hvalue]
  | branch _ _ onFalse hcondition hTrue hFalse =>
    cases onFalse with
    | none => simp [marked, markedOption, isValid, isValidOption, hcondition, hTrue]
    | some other =>
      simp [marked, markedOption, isValid, isValidOption, hcondition, hTrue, hFalse other rfl]
  | block items hitems | array items hitems =>
    simp only [marked, isValid, isValidList_eq]
    exact all_markedList hitems site

end Expr

end ExprLang
