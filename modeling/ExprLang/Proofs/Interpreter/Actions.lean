import ExprLang.Proofs.Fault
import ExprLang.Proofs.Interpreter.Instructions
import Mathlib.Tactic.SplitIfs

/-!
What actions give and change. A builtin changes nothing but the output (`applyBuiltin_cases`). The
operations on values raise typing faults and a few runtime faults (`Fault.Ordinary`), and besides
these a task that is settled can fail only because an expression is missing or an operator unknown
(`Settles.fault`).
-/

set_option autoImplicit false

namespace ExprLang

/-- The faults that operations on values raise. -/
inductive Fault.Ordinary : Fault → Prop
  | typing (cause : TypingCause) : Ordinary (.typing cause)
  | undefinedVariable (name : String) : Ordinary (.runtime (.undefinedVariable name))
  | divisionByZero : Ordinary (.runtime .divisionByZero)
  | outOfBounds (index : Int64) (size : Int) : Ordinary (.runtime (.outOfBounds index size))
  | outputClosed : Ordinary (.runtime .outputClosed)

theorem Scope.failsWith_get (s : Scope) (name : String) :
    FailsWith Fault.Ordinary (s.get name) := by
  unfold Scope.get
  split
  · exact .ok _
  · exact .error (.undefinedVariable name)

theorem Value.failsWith_asInt (v : Value) (operation : String) :
    FailsWith Fault.Ordinary (v.asInt operation) := by
  unfold Value.asInt
  split
  · exact .ok _
  · exact .error (.typing _)

theorem Value.failsWith_asBit (v : Value) (operation : String) :
    FailsWith Fault.Ordinary (v.asBit operation) := by
  unfold Value.asBit
  split
  · exact .ok _
  · exact .error (.typing _)

theorem Heap.failsWith_position (h : Heap) (address : Nat) (index : Int64) :
    FailsWith Fault.Ordinary (h.position address index) := by
  unfold Heap.position
  split
  · exact .ok _
  · exact .error (.outOfBounds index _)

/-- The twelve operators have a meaning for all values. -/
theorem Operator.failsWith_apply {op : Operator} (hop : Operator.known.contains op = true)
    (h : Heap) (left right : Value) : FailsWith Fault.Ordinary (op.apply h left right) := by
  cases op with
  | equal | notEqual => exact .ok _
  | and | or =>
    refine (left.failsWith_asBit _).bind fun l ↦ (right.failsWith_asBit _).bind fun r ↦ ?_
    exact .ok _
  | divide =>
    refine (left.failsWith_asInt _).bind fun l ↦ (right.failsWith_asInt _).bind fun r ↦ ?_
    unfold Operator.applyInt
    split_ifs
    · exact .error .divisionByZero
    · exact .ok _
  | other code => simp [Operator.known] at hop
  | _ =>
    refine (left.failsWith_asInt _).bind fun l ↦ (right.failsWith_asInt _).bind fun r ↦ ?_
    exact .ok _

/-- An operator without a meaning says so, unless an operand is of the wrong kind already. -/
theorem Operator.failsWith_apply_other (code : Int) (h : Heap) (left right : Value) :
    FailsWith (fun f ↦ f.Ordinary ∨ f = .runtime (.unknownOperator (other code).symbol))
      ((other code).apply h left right) := by
  refine ((left.failsWith_asInt _).mono fun _ ↦ .inl).bind fun l ↦ ?_
  refine ((right.failsWith_asInt _).mono fun _ ↦ .inl).bind fun r ↦ ?_
  exact .error (.inr rfl)

namespace Interpreter

/-- A builtin writes at most, and it gives a number or nothing, or fails with an ordinary fault. -/
theorem State.applyBuiltin_cases (s : State) (b : Builtin) (v : Value) :
    ∃ r output, s.applyBuiltin b v = (r, { s with output := output }) ∧
      ((∃ n, r = .ok (.int n)) ∨ r = .ok .void ∨ ∃ f : Fault, f.Ordinary ∧ r = .error f) := by
  cases b with
  | length =>
    cases v with
    | array address => exact ⟨_, s.output, rfl, .inl ⟨_, rfl⟩⟩
    | _ => exact ⟨_, s.output, rfl, .inr (.inr ⟨_, .typing _, rfl⟩)⟩
  | print =>
    change ∃ r output, s.applyPrint v = (r, _) ∧ _
    unfold State.applyPrint
    split
    · exact ⟨_, _, rfl, .inr (.inl rfl)⟩
    · exact ⟨_, s.output, rfl, .inr (.inr ⟨_, .outputClosed, rfl⟩)⟩

/-- What can be wrong where a task is settled. -/
theorem Settles.fault {t : Task} {a : Action} {s : State} {f : Fault} (h : Settles t a)
    (hf : (a.act s).1 = .error f) :
    f.Ordinary ∨ (t = .eval .missing ∧ f = .runtime .missingExpression) ∨
      ∃ v code left, t = .give v (.operate (.other code) left) ∧
        f = .runtime (.unknownOperator (Operator.other code).symbol) := by
  cases h with
  | missing => exact .inr (.inl ⟨rfl, (Except.error.inj hf).symm⟩)
  | mistyped v hw cause => exact .inl (Except.error.inj hf ▸ .typing cause)
  | @lookUp name _ => exact .inl (s.scope.failsWith_get name f hf)
  | operate v op left =>
    by_cases hop : Operator.known.contains op = true
    · exact .inl (Operator.failsWith_apply hop s.heap left v f hf)
    · cases op with
      | other code =>
        rcases Operator.failsWith_apply_other code s.heap left v f hf with hordinary | rfl
        · exact .inl hordinary
        · exact .inr (.inr ⟨v, code, left, rfl, rfl⟩)
      | _ => simp [Operator.known] at hop
  | applyBuiltin v b =>
    obtain ⟨r, output, hact, hr⟩ := s.applyBuiltin_cases b v
    rw [Action.act, hact] at hf
    subst hf
    rcases hr with ⟨n, hn⟩ | hvoid | ⟨g, hg, heq⟩
    · contradiction
    · contradiction
    · exact .inl (Except.error.inj heq ▸ hg)
  | read v address i =>
    exact .inl (((s.heap.failsWith_position address i).map _).map _ f hf)
  | write n address i =>
    rw [Action.act] at hf
    cases hposition : s.heap.position address i with
    | ok cell =>
      rw [hposition] at hf
      contradiction
    | error g =>
      rw [hposition] at hf
      exact .inl (Except.error.inj hf ▸ s.heap.failsWith_position address i g hposition)
  | _ => cases hf

end Interpreter

end ExprLang
