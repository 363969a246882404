import ExprLang.Proofs.Interpreter.Steps

/-!
What a machine has to do, in pieces: code to evaluate, bodies that functions may run, operators to
apply. A step makes up nothing: what it leaves to be done is a piece of what it was given
(`Splits.pieces`), or the body of a function from the table (`Settles.extends`). So a property that
the pieces of whatever has it have as well (`Closed`) is one of all that a run ever holds, if the
program and the functions in the table have it (`keeps_step`, `keeps_of_during`).
-/

set_option autoImplicit false

namespace ExprLang

/-- A piece of what is run. -/
inductive Interpreter.Piece
  /-- An expression to evaluate in the current frame. -/
  | code (e : Code)
  /-- The body of a function. -/
  | body (e : Code)
  | operator (op : Operator)

/-- What an expression is taken apart into, in the order in which it is needed. -/
def Expr.pieces : Code → List Interpreter.Piece
  | int _ | var _ | missing => []
  | binary op left right => [.code left, .code right, .operator op]
  | assign _ value => [.code value]
  | block items => items.map .code
  | branch condition onTrue onFalse =>
    .code condition :: .code onTrue :: onFalse.toList.map .code
  | loop condition body => [.code condition, .code body]
  | define _ _ _ body => [.body body]
  | call _ argument => [.code argument]
  | array elements => elements.map .code
  | access base index => [.code base, .code index]
  | assignCell base index value => [.code base, .code index, .code value]

/-- Induction over code, where an expression has the property if the expressions it is taken apart
into do. -/
theorem Expr.inductionOn_pieces {motive : Code → Prop}
    (h : ∀ e : Code, (∀ x, .code x ∈ e.pieces → motive x) → motive e) (e : Code) : motive e := by
  induction e using Expr.inductionOn with
  | int | var | missing | define => exact h _ (by simp [pieces])
  | binary _ _ _ hleft hright => exact h _ (by simp [pieces, hleft, hright])
  | assign _ _ hvalue => exact h _ (by simp [pieces, hvalue])
  | call _ _ hargument => exact h _ (by simp [pieces, hargument])
  | block _ hitems => exact h _ (by simpa [pieces] using hitems)
  | array _ helements => exact h _ (by simpa [pieces] using helements)
  | branch _ _ _ hcondition hTrue hFalse =>
    exact h _ (by simpa [pieces, hcondition, hTrue] using hFalse)
  | loop _ _ hcondition hbody => exact h _ (by simp [pieces, hcondition, hbody])
  | access _ _ hbase hindex => exact h _ (by simp [pieces, hbase, hindex])
  | assignCell _ _ _ hbase hindex hvalue => exact h _ (by simp [pieces, hbase, hindex, hvalue])

namespace Interpreter

/-- What waiting work still needs. A loop that waits needs all of itself. -/
def Work.pieces : Work → List Piece
  | rightOperand op right => [.code right, .operator op]
  | operate op _ => [.operator op]
  | sequence rest | element _ rest => rest.map .code
  | choose onTrue onFalse => .code onTrue :: onFalse.toList.map .code
  | test condition body _ | again condition body => [.code (.loop condition body)]
  | enter f => [.body f.body]
  | .index e => [.code e]
  | cellIndex e value => [.code e, .code value]
  | cellValue _ value => [.code value]
  | bind _ | applyBuiltin _ | leave _ | read _ | write .. => []

/-- Neither enters or leaves a call nor belongs to a loop. -/
def Work.isPlain : Work → Bool
  | enter _ | leave _ | test .. | again .. => false
  | _ => true

/-- What a task still needs. -/
def Task.pieces : Task → List Piece
  | eval e => e.pieces
  | give _ w => w.pieces

/-- The task does not enter or leave a call, and it belongs to no loop. -/
def Task.isPlain : Task → Bool
  | eval (.loop ..) => false
  | eval _ => true
  | give _ w => w.isPlain

theorem Task.isPlain_eval {e : Code} (he : ∀ condition body, e ≠ .loop condition body) :
    (eval e).isPlain = true := by
  cases e with
  | loop condition body => exact absurd rfl (he condition body)
  | _ => rfl

/-- A task that is taken apart is plain, and so is what waits for the rest of it. -/
theorem Splits.pieces {t : Task} {e : Code} {w : Work} (h : Splits t e w) :
    w.isPlain = true ∧ t.pieces = .code e :: w.pieces := by
  cases h <;> exact ⟨rfl, rfl⟩

/-- Calls and limits are as before, and every function in the table was there before or has its body
from a list of pieces. -/
structure State.Extends (pieces : List Piece) (s t : State) : Prop where
  depth : t.depth = s.depth
  limits : t.limits = s.limits
  functions : ∀ name f, t.functions.get? name = some f →
    s.functions.get? name = some f ∨ .body f.body ∈ pieces

theorem State.Extends.of_eq {pieces : List Piece} {s t : State} (hdepth : t.depth = s.depth)
    (hlimits : t.limits = s.limits) (hfunctions : t.functions = s.functions) :
    s.Extends pieces t :=
  ⟨hdepth, hlimits, fun _ _ h ↦ .inl (hfunctions ▸ h)⟩

theorem State.Extends.refl {pieces : List Piece} (s : State) : s.Extends pieces s :=
  .of_eq rfl rfl rfl

/-- A definition puts its body into the table. -/
theorem State.extends_define (s : State) (f : Function) : s.Extends [.body f.body] (s.define f) := by
  refine ⟨rfl, rfl, fun name g hg ↦ ?_⟩
  rw [State.define, Table.get?_insert] at hg
  split_ifs at hg with hname
  · cases hg
    exact .inr List.mem_cons_self
  · exact .inl hg

/-- An action puts no function into the table but the one that its task defines. -/
theorem Settles.extends {t : Task} {a : Action} (h : Settles t a) (s : State) :
    s.Extends t.pieces (a.act s).2 := by
  cases h with
  | define site name parameter body =>
    obtain ⟨hdepth, hlimits, hfunctions⟩ := s.extends_define ⟨site, name, parameter, body⟩
    exact ⟨hdepth, hlimits, hfunctions⟩
  | applyBuiltin v b =>
    obtain ⟨r, output, hact, -⟩ := s.applyBuiltin_cases b v
    rw [Action.act, hact]
    exact .of_eq rfl rfl rfl
  | write n address i =>
    rw [Action.act]
    split <;> exact .of_eq rfl rfl rfl
  | _ => exact .of_eq rfl rfl rfl

theorem State.extends_countIteration (s : State) : s.Extends [] s.countIteration.2 := by
  simp only [State.countIteration]
  split_ifs <;> exact .of_eq rfl rfl rfl

/-! ### What all pieces have in common -/

/-- The pieces of whatever has the property have it. -/
structure Closed (P : Piece → Prop) : Prop where
  pieces : ∀ e, P (.code e) → ∀ p ∈ e.pieces, P p
  body : ∀ e, P (.body e) → P (.code e)

/-- The functions in the table have the property. -/
def State.Keeps (P : Piece → Prop) (s : State) : Prop :=
  ∀ name f, s.functions.get? name = some f → P (.body f.body)

/-- All that the machine holds has the property. -/
structure Machine.Keeps (P : Piece → Prop) (m : Machine) : Prop where
  focus : ∀ e, m.focus = .eval e → P (.code e)
  work : ∀ w ∈ m.work, ∀ p ∈ w.pieces, P p
  state : m.state.Keeps P

theorem State.Keeps.extends {P : Piece → Prop} {pieces : List Piece} {s t : State}
    (h : s.Keeps P) (hbodies : ∀ e, .body e ∈ pieces → P (.body e))
    (hextends : s.Extends pieces t) : t.Keeps P := by
  intro name f hf
  rcases hextends.functions name f hf with hold | hnew
  · exact h name f hold
  · exact hbodies f.body hnew

namespace Machine

variable {P : Piece → Prop}

theorem Keeps.result {work : List Work} {s : State} (hwork : ∀ w ∈ work, ∀ p ∈ w.pieces, P p)
    (hs : s.Keeps P) (r : Except Fault Value) : Keeps P ⟨ofResult r, work, s⟩ := by
  refine ⟨fun e he ↦ ?_, hwork, hs⟩
  cases r <;> contradiction

theorem Keeps.eval {e : Code} {work : List Work} {s : State} (he : P (.code e))
    (hwork : ∀ w ∈ work, ∀ p ∈ w.pieces, P p) (hs : s.Keeps P) : Keeps P ⟨.eval e, work, s⟩ :=
  ⟨fun _ h ↦ Focus.eval.inj h ▸ he, hwork, hs⟩

theorem Keeps.beginCheck {condition body : Code} (last : Value) {work : List Work} {s : State}
    (hloop : P (.code (.loop condition body))) (hP : Closed P)
    (hwork : ∀ w ∈ work, ∀ p ∈ w.pieces, P p) (hs : s.Keeps P) :
    (beginCheck condition body last work s).Keeps P := by
  have hcounted : s.countIteration.2.Keeps P := hs.extends (by simp) s.extends_countIteration
  rcases beginCheck_cases condition body last work s with hcheck | hrefuse
  · have hcondition : P (.code condition) := hP.pieces _ hloop _ List.mem_cons_self
    rw [hcheck]
    exact .eval hcondition
      (List.forall_mem_cons.mpr ⟨by simpa [Work.pieces] using hloop, hwork⟩) hcounted
  · rw [hrefuse]
    exact .result hwork hcounted (.error _)

/-- What a task still needs has the property, if all that the machine holds does. -/
theorem Keeps.pieces {t : Task} {work : List Work} {s : State} (hP : Closed P)
    (h : (t.machine work s).Keeps P) : ∀ p ∈ t.pieces, P p := by
  cases t with
  | eval e => exact hP.pieces e (h.focus e rfl)
  | give v w => exact h.work w List.mem_cons_self

theorem Keeps.perform {t : Task} {i : Instruction} {work : List Work} {s : State} (hP : Closed P)
    (h : (t.machine work s).Keeps P) (hissues : Issues t i) : (i.perform work s).Keeps P := by
  have hpieces := h.pieces hP
  have hrest : ∀ w ∈ work, ∀ p ∈ w.pieces, P p :=
    fun w hw ↦ h.work w (List.mem_append_right _ hw)
  have hs : s.Keeps P := h.state
  cases hissues with
  | settle ha => exact .result hrest (hs.extends (fun e he ↦ hpieces _ he) (ha.extends s)) _
  | push hsplit =>
    obtain ⟨-, heq⟩ := hsplit.pieces
    rw [heq] at hpieces
    obtain ⟨he, hw⟩ := List.forall_mem_cons.mp hpieces
    exact .eval he (List.forall_mem_cons.mpr ⟨hw, hrest⟩) hs
  | onTrue v onTrue onFalse => exact .eval (hpieces _ List.mem_cons_self) hrest hs
  | onFalse v onTrue onFalse =>
    exact .eval (hpieces _ (by simp [Task.pieces, Work.pieces])) hrest hs
  | @find name hname argument =>
    have hargument : P (.code argument) := hpieces _ List.mem_cons_self
    rw [Instruction.perform]
    cases hf : s.functions.get? name with
    | none => exact .result hrest hs (.error _)
    | some f =>
      have hbody : ∀ p ∈ (Work.enter f).pieces, P p := by
        simpa [Work.pieces] using hs name f hf
      exact .eval hargument (List.forall_mem_cons.mpr ⟨hbody, hrest⟩) hs
  | enter v f =>
    have hbody : P (.body f.body) := hpieces _ List.mem_cons_self
    rw [Instruction.perform]
    split_ifs
    · exact .result hrest hs (.error _)
    · exact .eval (hP.body _ hbody)
        (List.forall_mem_cons.mpr ⟨List.forall_mem_nil _, hrest⟩) hs
  | leave v caller =>
    have hreturn : (s.leaveCall caller).Keeps P := hs
    exact .result hrest hreturn (.ok v)
  | enterLoop condition body => exact .beginCheck .void (h.focus _ rfl) hP hrest hs
  | turn v condition body last =>
    have hloop : P (.code (.loop condition body)) := hpieces _ List.mem_cons_self
    have hbody : P (.code body) := hP.pieces _ hloop _ (by simp [Expr.pieces])
    exact .eval hbody (List.forall_mem_cons.mpr ⟨hpieces, hrest⟩) hs
  | check v condition body => exact .beginCheck v (hpieces _ List.mem_cons_self) hP hrest hs

/-- No step leads away from a property that the pieces of whatever has it have. -/
theorem keeps_step {m m' : Machine} (hP : Closed P) (h : m.Keeps P) (hstep : m.step = .inl m') :
    m'.Keeps P := by
  cases transition_of_step hstep with
  | perform t rest s => exact h.perform hP t.issues
  | pass f w rest s =>
    have hunwind : (unwind s w).Keeps P := by cases w <;> exact h.state
    exact .result (List.forall_mem_cons.mp h.work).2 hunwind (.error f)

/-- What a run holds in its end has the property as well. -/
theorem keeps_of_run {m : Machine} {fuel : Nat} {r : Except Fault Value} {s : State}
    (hP : Closed P) (h : m.Keeps P) (hrun : m.run fuel = some (r, s)) : s.Keeps P :=
  (run_invariant (fun _ _ hm hstep ↦ keeps_step hP hm hstep) hrun h).state

end Machine

/-! ### The moments of an execution -/

/-- The machine that is about to evaluate `e`, whose definitions have got sites. -/
def State.starting (s : State) (e : Tree) : Machine :=
  .start (e.marked s.nextSite).1 { s with nextSite := (e.marked s.nextSite).2 }

/-- The moments of the execution of a program. -/
inductive During : State → List Tree → Machine → Prop
  | start (s : State) (e : Tree) (rest : List Tree) : During s (e :: rest) (s.starting e)
  | step {s : State} {program : List Tree} {m m' : Machine} (h : During s program m)
      (hstep : m.step = .inl m') : During s program m'
  | later {s t : State} {e : Tree} {rest : List Tree} {fuel : Nat} {v : Value} {m : Machine}
      (hfirst : s.evaluate fuel e = some (.ok v, t)) (h : During t rest m) :
      During s (e :: rest) m

/-- Before a program runs, the property is that of its code and of the functions in the table. -/
structure State.Ready (P : Piece → Prop) (s : State) (program : List Tree) : Prop where
  code : ∀ e ∈ program, ∀ site, P (.code (e.marked site).1)
  functions : s.Keeps P

theorem State.Ready.starting {P : Piece → Prop} {s : State} {e : Tree} {rest : List Tree}
    (h : s.Ready P (e :: rest)) : (s.starting e).Keeps P :=
  .eval (h.code e List.mem_cons_self s.nextSite) (List.forall_mem_nil _) h.functions

theorem State.Ready.next {P : Piece → Prop} (hP : Closed P) {s t : State} {e : Tree}
    {rest : List Tree} {fuel : Nat} {r : Except Fault Value} (h : s.Ready P (e :: rest))
    (hfirst : s.evaluate fuel e = some (r, t)) : t.Ready P rest :=
  ⟨fun x hx ↦ h.code x (List.mem_cons_of_mem _ hx), Machine.keeps_of_run hP h.starting hfirst⟩

/-- Whatever an execution holds at any moment has the property. -/
theorem keeps_of_during {P : Piece → Prop} (hP : Closed P) {s : State} {program : List Tree}
    {m : Machine} (h : During s program m) (hready : s.Ready P program) : m.Keeps P := by
  induction h with
  | start s e rest => exact hready.starting
  | step _ hstep ih => exact Machine.keeps_step hP (ih hready) hstep
  | later hfirst _ ih => exact ih (hready.next hP hfirst)

end Interpreter

end ExprLang
