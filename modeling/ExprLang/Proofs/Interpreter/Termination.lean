import ExprLang.Proofs.Expr.Flat
import ExprLang.Proofs.Interpreter.Frame
import ExprLang.Proofs.Interpreter.Pieces

/-!
Evaluations that end. Flat code ends if its loops do and if the bodies of functions do one call
deeper (`runs_of_flat`). Code without loops therefore always ends, by induction on the calls that the
limit still allows (`runs_of_not_loops`), and it leaves the count of condition checks alone
(`Evaluates.iterations`).
-/

set_option autoImplicit false

namespace ExprLang.Interpreter

/-- What a flat program is made of. The bodies of functions have no loops in any case. -/
def Piece.Flat (loops : Bool) : Piece → Prop
  | .code e => e.isFlat loops = true
  | .body e => e.isFlat false = true
  | .operator _ => True

theorem closed_flat (loops : Bool) : Closed (Piece.Flat loops) := by
  have hmono : ∀ e : Code, e.isFlat false = true → e.isFlat loops = true := by
    intro e he
    cases loops with
    | false => exact he
    | true => exact Expr.isFlat_of_false he
  refine ⟨fun e he ↦ ?_, hmono⟩
  change e.isFlat loops = true at he
  cases e with
  | int | var | missing => exact List.forall_mem_nil _
  | assign | call | define | binary | access | assignCell =>
    simpa [Expr.pieces, Piece.Flat, Expr.isFlat, and_assoc] using he
  | block | array => simpa [Expr.pieces, Piece.Flat, Expr.isFlat, Expr.isFlatList_eq] using he
  | branch _ _ onFalse =>
    cases onFalse <;>
      simpa [Expr.pieces, Piece.Flat, Expr.isFlat, Expr.isFlatOption, and_assoc] using he
  | loop =>
    simp only [Expr.isFlat, Bool.and_eq_true] at he
    simpa [Expr.pieces, Piece.Flat] using ⟨hmono _ he.1.2, hmono _ he.2⟩

namespace Machine

/-- The run ends. -/
def Halts (m : Machine) : Prop := ∃ fuel outcome, m.run fuel = some outcome

theorem halts_of_step {m m' : Machine} (h : m.step = .inl m') (hm : m'.Halts) : m.Halts := by
  obtain ⟨fuel, outcome, hrun⟩ := hm
  refine ⟨fuel + 1, outcome, ?_⟩
  rw [run, h]
  exact hrun

theorem halts_result (r : Except Fault Value) (s : State) : Halts ⟨ofResult r, [], s⟩ := by
  cases r with
  | ok v => exact ⟨1, (.ok v, s), rfl⟩
  | error f => exact ⟨1, (.error f, s), rfl⟩

end Machine

/-- A state at a given depth of calls, where no function has a loop. -/
structure State.Steady (limits : Limits) (depth : Nat) (s : State) : Prop where
  limits : s.limits = limits
  depth : s.depth = depth
  functions : s.Keeps (Piece.Flat false)

theorem State.Steady.extends {limits : Limits} {depth : Nat} {pieces : List Piece} {s t : State}
    (h : s.Steady limits depth) (hbody : ∀ e, .body e ∈ pieces → e.isFlat false = true)
    (hextends : s.Extends pieces t) : t.Steady limits depth := by
  exact ⟨hextends.limits.trans h.limits, hextends.depth.trans h.depth,
    h.functions.extends hbody hextends⟩

/-- Whatever the result that the work gets at this depth, the run ends. -/
def Continues (limits : Limits) (depth : Nat) (work : List Work) : Prop :=
  ∀ r s, s.Steady limits depth → Machine.Halts ⟨Machine.ofResult r, work, s⟩

/-- The evaluation of `e` at this depth ends, if the work that waits for it does. -/
def Runs (limits : Limits) (depth : Nat) (e : Code) : Prop :=
  ∀ work s, Continues limits depth work → s.Steady limits depth → Machine.Halts ⟨.eval e, work, s⟩

/-- What is needed of a piece so that all that is made of such pieces ends. -/
def Piece.Ends (limits : Limits) (depth : Nat) : Piece → Prop
  | .code e => Runs limits depth e
  | .body e => e.isFlat false = true
  | .operator _ => True

section Runs

variable {limits : Limits} {depth : Nat} {work : List Work}

/-- Faults pass work that does not leave a call. -/
theorem continues_cons {w : Work} (hw : w.isLeave = false) (hwork : Continues limits depth work)
    (hvalue : ∀ v s, s.Steady limits depth → Machine.Halts ⟨.value v, w :: work, s⟩) :
    Continues limits depth (w :: work) := by
  intro r s hs
  cases r with
  | ok v => exact hvalue v s hs
  | error f =>
    have hunwind : Machine.unwind s w = s := by
      cases w <;> first | rfl | contradiction
    exact Machine.halts_of_step rfl (hunwind.symm ▸ hwork (.error f) s hs)

theorem continues_leave (caller : Scope) (hwork : Continues limits depth work) :
    Continues limits (depth + 1) (.leave caller :: work) := by
  intro r s hs
  have hreturn : (s.leaveCall caller).Steady limits depth := by
    refine ⟨hs.limits, ?_, hs.functions⟩
    change s.depth - 1 = depth
    rw [hs.depth, Nat.add_sub_cancel]
  have hend := hwork r _ hreturn
  cases r <;> exact Machine.halts_of_step rfl hend

variable (hcall : depth < limits.depth → ∀ e, e.isFlat false = true → Runs limits (depth + 1) e)

include hcall

theorem continues_enter {f : Function} (hf : f.body.isFlat false = true)
    (hwork : Continues limits depth work) : Continues limits depth (.enter f :: work) := by
  refine continues_cons rfl hwork fun v s hs ↦ Machine.halts_of_step rfl ?_
  simp only [Machine.resume]
  split_ifs with hlimit
  · exact hwork (.error _) s hs
  · rw [hs.limits, hs.depth, Nat.not_le] at hlimit
    have hinside : (s.enterCall f v).Steady limits (depth + 1) :=
      ⟨hs.limits, congrArg (· + 1) hs.depth, hs.functions⟩
    exact hcall hlimit f.body hf _ _ (continues_leave s.scope hwork) hinside

/-- A plain task made of pieces ends, if plain work made of fewer pieces does. -/
theorem halts_of_task (t : Task) (ht : t.isPlain = true)
    (hpieces : ∀ p ∈ t.pieces, p.Ends limits depth)
    (hplain : ∀ w : Work, w.isPlain = true → w.pieces.length < t.pieces.length →
      (∀ p ∈ w.pieces, p.Ends limits depth) → Continues limits depth (w :: work))
    (hwork : Continues limits depth work) {s : State} (hs : s.Steady limits depth) :
    (t.machine work s).Halts := by
  refine Machine.halts_of_step (Machine.step_machine t work s) ?_
  have hissues := t.issues
  generalize t.instruction = i at hissues ⊢
  cases hissues with
  | settle ha => exact hwork _ _ (hs.extends (fun e he ↦ hpieces _ he) (ha.extends s))
  | push hsplit =>
    obtain ⟨hw, heq⟩ := hsplit.pieces
    rw [heq] at hpieces hplain
    obtain ⟨he, hrest⟩ := List.forall_mem_cons.mp hpieces
    exact he _ s (hplain _ hw (Nat.lt_succ_self _) hrest) hs
  | onTrue v onTrue onFalse => exact hpieces (.code onTrue) List.mem_cons_self _ s hwork hs
  | onFalse v onTrue onFalse =>
    exact hpieces (.code onFalse) (by simp [Task.pieces, Work.pieces]) _ s hwork hs
  | @find name hname argument =>
    rw [Instruction.perform]
    cases hf : s.functions.get? name with
    | none => exact hwork (.error _) s hs
    | some f =>
      have hargument : Runs limits depth argument := hpieces (.code argument) List.mem_cons_self
      exact hargument _ s (continues_enter hcall (hs.functions name f hf) hwork) hs
  | enter | leave | enterLoop | turn | check => contradiction

theorem continues_plain {w : Work} (hw : w.isPlain = true)
    (hpieces : ∀ p ∈ w.pieces, p.Ends limits depth) (hwork : Continues limits depth work) :
    Continues limits depth (w :: work) := by
  -- By induction on the number of pieces that the work needs.
  induction hn : w.pieces.length using Nat.strongRecOn generalizing w with
  | ind n ih =>
    have hleave : w.isLeave = false := by
      cases w <;> first | rfl | contradiction
    refine continues_cons hleave hwork fun v s hs ↦ ?_
    refine halts_of_task hcall (.give v w) hw hpieces ?_ hwork hs
    intro other hother hless hothers
    exact ih _ (hn ▸ hless) hother hothers rfl

theorem runs_of_pieces {e : Code} (he : ∀ condition body, e ≠ .loop condition body)
    (hpieces : ∀ p ∈ e.pieces, p.Ends limits depth) : Runs limits depth e := by
  intro work s hwork hs
  refine halts_of_task hcall (.eval e) (Task.isPlain_eval he) hpieces ?_ hwork hs
  exact fun w hw _ hneeded ↦ continues_plain hcall hw hneeded hwork

/-- Flat code ends, if its loops do and if the bodies of functions do one call deeper. -/
theorem runs_of_flat {loops : Bool}
    (hloop : ∀ condition body, Expr.isFlat loops (.loop condition body) = true →
      Runs limits depth (.loop condition body))
    {e : Code} (he : e.isFlat loops = true) : Runs limits depth e := by
  induction e using Expr.inductionOn_pieces with
  | h e ih =>
    by_cases hform : ∃ condition body, e = .loop condition body
    · obtain ⟨condition, body, rfl⟩ := hform
      exact hloop condition body he
    · push Not at hform
      refine runs_of_pieces hcall hform fun p hp ↦ ?_
      have hflat := (closed_flat loops).pieces e he p hp
      cases p with
      | code x => exact ih x hp hflat
      | body x => exact hflat
      | operator op => trivial

end Runs

/-- Code without loops ends, however the functions that it calls call each other. -/
theorem runs_of_not_loops (limits : Limits) (depth : Nat) {e : Code} (he : e.isFlat false = true) :
    Runs limits depth e := by
  refine runs_of_flat (fun hless body hbody ↦ ?_) (fun condition body hloop ↦ ?_) he
  · exact runs_of_not_loops limits (depth + 1) hbody
  · simp [Expr.isFlat] at hloop
-- Each call leaves fewer of them to the limit.
termination_by limits.depth - depth

/-! ### Evaluations by themselves -/

/-- The evaluation of `e` in `s` ends with the result `r` in the state `t`. -/
def Evaluates (e : Code) (s : State) (r : Except Fault Value) (t : State) : Prop :=
  ∃ fuel, (Machine.start e s).run fuel = some (r, t)

theorem Runs.exists_evaluates {e : Code} {s : State} (h : Runs s.limits s.depth e)
    (hs : s.Keeps (Piece.Flat false)) : ∃ r t, Evaluates e s r t := by
  obtain ⟨fuel, ⟨r, t⟩, hrun⟩ := h [] s (fun r t _ ↦ Machine.halts_result r t) ⟨rfl, rfl, hs⟩
  exact ⟨r, t, fuel, hrun⟩

/-- Flat code leaves depth and limits alone, and defines no function with a loop. -/
theorem Evaluates.steady {limits : Limits} {depth : Nat} {loops : Bool} {e : Code} {s t : State}
    {r : Except Fault Value} (h : Evaluates e s r t) (he : e.isFlat loops = true)
    (hs : s.Steady limits depth) : t.Steady limits depth := by
  obtain ⟨fuel, hrun⟩ := h
  obtain ⟨-, hdepth, hlimits⟩ :=
    rebinds_of_run hrun ⟨rfl, List.Subset.refl e.assigned, .refl, rfl⟩
  have hstart : (Machine.start e s).Keeps (Piece.Flat loops) :=
    .eval he (List.forall_mem_nil _) hs.functions
  have hend := Machine.keeps_of_run (closed_flat loops) hstart hrun
  exact ⟨hlimits.trans hs.limits, hdepth.trans hs.depth, hend⟩

/-- Where there are no loops, no condition check is counted. -/
theorem Machine.iterations_of_step {m m' : Machine} (h : m.Keeps (Piece.Flat false))
    (hstep : m.step = .inl m') : m'.state.iterations = m.state.iterations := by
  cases effect_step hstep with
  | within _ _ _ _ _ _ _ _ hcount => exact hcount
  | enter | leave | turn => rfl
  | refuse _ _ _ _ _ _ hcount => exact hcount
  | enterLoop condition body =>
    have hloop : Expr.isFlat false (.loop condition body) = true := h.focus _ rfl
    simp [Expr.isFlat] at hloop
  | check condition body =>
    have hloop : Expr.isFlat false (.loop condition body) = true :=
      h.work _ List.mem_cons_self _ List.mem_cons_self
    simp [Expr.isFlat] at hloop

/-- Code without loops leaves the count of condition checks alone. -/
theorem Evaluates.iterations {e : Code} {s t : State} {r : Except Fault Value}
    (h : Evaluates e s r t) (he : e.isFlat false = true) (hs : s.Keeps (Piece.Flat false)) :
    t.iterations = s.iterations := by
  obtain ⟨fuel, hrun⟩ := h
  have hstart : (Machine.start e s).Keeps (Piece.Flat false) :=
    .eval he (List.forall_mem_nil _) hs
  have hend := Machine.run_invariant
    (P := fun m ↦ m.Keeps (Piece.Flat false) ∧ m.state.iterations = s.iterations)
    (fun m m' hm hstep ↦ ⟨Machine.keeps_step (closed_flat false) hm.1 hstep,
      (Machine.iterations_of_step hm.1 hstep).trans hm.2⟩) hrun ⟨hstart, rfl⟩
  exact hend.2

end ExprLang.Interpreter
