import ExprLang.Proofs.Expr.Shape

/-!
Trees whose loops are not nested. A tree is flat if no loop in it is inside another loop or inside
the body of a function, and it may be asked to have no loops at all.
-/

set_option autoImplicit false

namespace ExprLang.Expr

variable {μ : Type}

mutual

/-- No loop is inside another one or inside the body of a function, and there is a loop at all only
if `loops` allows it. -/
def isFlat (loops : Bool) : Expr μ → Bool
  | int _ | var _ | missing => true
  | binary _ left right => left.isFlat loops && right.isFlat loops
  | assign _ value => value.isFlat loops
  | block items => isFlatList loops items
  | branch condition onTrue onFalse =>
    condition.isFlat loops && onTrue.isFlat loops && isFlatOption loops onFalse
  | loop condition body => loops && condition.isFlat false && body.isFlat false
  | define _ _ _ body => body.isFlat false
  | call _ argument => argument.isFlat loops
  | array elements => isFlatList loops elements
  | access base index => base.isFlat loops && index.isFlat loops
  | assignCell base index value => base.isFlat loops && index.isFlat loops && value.isFlat loops

def isFlatList (loops : Bool) : List (Expr μ) → Bool
  | [] => true
  | e :: rest => e.isFlat loops && isFlatList loops rest

def isFlatOption (loops : Bool) : Option (Expr μ) → Bool
  | none => true
  | some e => e.isFlat loops

end

theorem isFlatList_eq (loops : Bool) (items : List (Expr μ)) :
    isFlatList loops items = items.all (isFlat loops) := by
  induction items with
  | nil => rfl
  | cons e rest ih => rw [isFlatList, ih, List.all_cons]

/-- A tree without loops is flat. -/
theorem isFlat_of_false {e : Expr μ} (h : e.isFlat false = true) : e.isFlat true = true := by
  induction e with
  | int | var | missing => rfl
  | define => exact h
  | loop => simp [isFlat] at h
  | assign _ _ hvalue => exact hvalue h
  | call _ _ hargument => exact hargument h
  | binary _ _ _ hleft hright | access _ _ hleft hright =>
    simp only [isFlat, Bool.and_eq_true] at h ⊢
    exact ⟨hleft h.1, hright h.2⟩
  | assignCell _ _ _ hbase hindex hvalue =>
    simp only [isFlat, Bool.and_eq_true] at h ⊢
    exact ⟨⟨hbase h.1.1, hindex h.1.2⟩, hvalue h.2⟩
  | branch _ _ onFalse hcondition hTrue hFalse =>
    simp only [isFlat, Bool.and_eq_true] at h ⊢
    refine ⟨⟨hcondition h.1.1, hTrue h.1.2⟩, ?_⟩
    cases onFalse with
    | none => rfl
    | some other => exact hFalse other rfl h.2
  | block _ hitems | array _ hitems =>
    simp only [isFlat, isFlatList_eq, List.all_eq_true] at h ⊢
    exact fun e he ↦ hitems e he (h e he)

/-- Numbering the definitions of a tree does not make it flat, or less so. -/
theorem isFlat_marked (loops : Bool) (e : Expr μ) (site : Site) :
    (e.marked site).1.isFlat loops = e.isFlat loops := by
  induction e generalizing site loops with
  | int | var | missing => rfl
  | define _ _ _ _ hbody => simp [marked, isFlat, hbody]
  | assign _ _ hvalue => simp [marked, isFlat, hvalue]
  | call _ _ hargument => simp [marked, isFlat, hargument]
  | binary _ _ _ hleft hright => simp [marked, isFlat, hleft, hright]
  | loop _ _ hcondition hbody => simp [marked, isFlat, hcondition, hbody]
  | access _ _ hbase hindex => simp [marked, isFlat, hbase, hindex]
  | assignCell _ _ _ hbase hindex hvalue => simp [marked, isFlat, hbase, hindex, hvalue]
  | branch _ _ onFalse hcondition hTrue hFalse =>
    cases onFalse with
    | none => simp [marked, markedOption, isFlat, isFlatOption, hcondition, hTrue]
    | some other =>
      simp [marked, markedOption, isFlat, isFlatOption, hcondition, hTrue, hFalse other rfl]
  | block items hitems | array items hitems =>
    simp only [marked, isFlat, isFlatList_eq]
    exact all_markedList (fun e he ↦ hitems e he loops) site

end ExprLang.Expr
