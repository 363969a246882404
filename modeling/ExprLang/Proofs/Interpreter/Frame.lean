import ExprLang.Proofs.Interpreter.Steps

/-!
What an evaluation leaves alone. While it runs, the frame it started in is the current one, or it
waits as the caller of the outermost active call (`FrameKept`), and either way it has got no
bindings but of names that the expression itself binds. So in the end the enclosing frames, the
depth and the limits are those of the start, and the current frame differs in such names only
(`frame_of_evaluate`).
-/

set_option autoImplicit false

namespace ExprLang.Interpreter

/-- The frame that `entry` had as its current one differs from it in `names` only, and whatever
waits there binds none but `names`. Here `pending` are the names still to be bound in the current
frame; they do not matter to the frames of callers. -/
def FrameKept (names : List String) (entry : State) :
    (pending : List String) → Scope → (depth : Nat) → List Work → Prop
  | pending, scope, depth, [] =>
    pending ⊆ names ∧ entry.scope.Rebinds names scope ∧ depth = entry.depth
  | _, _, depth, .leave caller :: work =>
    0 < depth ∧ FrameKept names entry [] caller (depth - 1) work
  | pending, scope, depth, w :: work =>
    FrameKept names entry (pending ++ w.assigned) scope depth work

namespace FrameKept

variable {names : List String} {entry : State} {pending fewer : List String} {scope : Scope}
  {depth : Nat} {work : List Work}

theorem cons_iff {w : Work} (h : w.isLeave = false) :
    FrameKept names entry pending scope depth (w :: work) ↔
      FrameKept names entry (pending ++ w.assigned) scope depth work := by
  cases w <;> first | rfl | contradiction

/-- Work of the current frame can be counted among what is pending. -/
theorem append_iff {old : List Work} (h : ∀ w ∈ old, w.isLeave = false) :
    FrameKept names entry pending scope depth (old ++ work) ↔
      FrameKept names entry (pending ++ old.flatMap Work.assigned) scope depth work := by
  induction old generalizing pending with
  | nil => simp
  | cons w old ih =>
    obtain ⟨hw, hold⟩ := List.forall_mem_cons.mp h
    rw [List.cons_append, cons_iff hw, ih hold, List.flatMap_cons, List.append_assoc]

theorem mono (h : FrameKept names entry pending scope depth work) (hfewer : fewer ⊆ pending) :
    FrameKept names entry fewer scope depth work := by
  induction work generalizing pending fewer with
  | nil => exact ⟨List.Subset.trans hfewer h.1, h.2⟩
  | cons w work ih =>
    cases hw : w.isLeave with
    | true =>
      cases w with
      | leave caller => exact h
      | _ => contradiction
    | false =>
      rw [cons_iff hw] at h ⊢
      exact ih h (List.append_subset.mpr ⟨List.subset_append_of_subset_left _ hfewer,
        List.subset_append_right _ _⟩)

/-- Names that are pending may be bound. -/
theorem rebinds {other : Scope} (h : FrameKept names entry pending scope depth work)
    (hother : scope.Rebinds pending other) : FrameKept names entry pending other depth work := by
  induction work generalizing pending with
  | nil => exact ⟨h.1, h.2.1.trans (hother.mono h.1), h.2.2⟩
  | cons w work ih =>
    cases hw : w.isLeave with
    | true =>
      cases w with
      | leave caller => exact h
      | _ => contradiction
    | false =>
      rw [cons_iff hw] at h ⊢
      exact ih h (hother.mono (List.subset_append_left _ _))

end FrameKept

/-- What holds of a machine that began to evaluate in `entry`. -/
structure Machine.KeepsFrame (m : Machine) (names : List String) (entry : State) : Prop where
  limits : m.state.limits = entry.limits
  frame : FrameKept names entry m.focus.assigned m.state.scope m.state.depth m.work

namespace Machine

/-- Work of the current frame may be replaced by work that binds no other names. -/
theorem KeepsFrame.exchange {names : List String} {entry s s' : State} {focus focus' : Focus}
    (old new : List Work) {rest : List Work} (h : KeepsFrame ⟨focus, old ++ rest, s⟩ names entry)
    (hold : ∀ w ∈ old, w.isLeave = false) (hnew : ∀ w ∈ new, w.isLeave = false)
    (hassigned : focus'.assigned ++ new.flatMap Work.assigned ⊆
      focus.assigned ++ old.flatMap Work.assigned)
    (hstate : s.Rebinds (focus.assigned ++ old.flatMap Work.assigned) s') :
    KeepsFrame ⟨focus', new ++ rest, s'⟩ names entry := by
  refine ⟨hstate.limits.trans h.limits, ?_⟩
  have hpending := (FrameKept.append_iff hold).mp h.frame
  simp only [hstate.depth] at hpending ⊢
  exact (FrameKept.append_iff hnew).mpr ((hpending.rebinds hstate.scope).mono hassigned)

theorem keepsFrame_step {names : List String} {entry : State} {m m' : Machine}
    (h : m.KeepsFrame names entry) (hstep : m.step = .inl m') : m'.KeepsFrame names entry := by
  cases effect_step hstep with
  | within old new rest hold hnew _ hassigned hstate _ =>
    exact .exchange old new h (fun w hw ↦ (hold.2 w hw).1) (fun w hw ↦ (hnew w hw).1) hassigned
      hstate
  | enter f v rest hdepth => exact ⟨h.limits, Nat.succ_pos _, (FrameKept.cons_iff rfl).mp h.frame⟩
  | leave r caller rest s => exact ⟨h.limits, h.frame.2.mono (by simp [assigned_ofResult])⟩
  | enterLoop condition body rest hstate _ =>
    exact .exchange [] [_] h (by simp) (by simp [Work.isLeave])
      (by simp [Focus.assigned, Work.assigned, Expr.assigned]) (hstate.mono (List.nil_subset _))
  | turn condition body last v rest s =>
    exact .exchange [_] [_] h (by simp [Work.isLeave]) (by simp [Work.isLeave])
      (by simp [Focus.assigned, Work.assigned]) ⟨.refl, rfl, rfl⟩
  | check condition body v rest _ hstate _ =>
    exact .exchange [_] [_] h (by simp [Work.isLeave]) (by simp [Work.isLeave])
      (by simp [Focus.assigned, Work.assigned]) (hstate.mono (List.nil_subset _))
  | refuse condition body v rest _ hstate _ =>
    exact .exchange [_] [] h (by simp [Work.isLeave]) (by simp) (by simp [Focus.assigned])
      (hstate.mono (List.nil_subset _))

end Machine

/-- A frame is kept through a whole run. -/
theorem rebinds_of_run {names : List String} {entry : State} {m : Machine} {fuel : Nat}
    {r : Except Fault Value} {s : State} (hrun : m.run fuel = some (r, s))
    (h : m.KeepsFrame names entry) : entry.Rebinds names s := by
  have hend := Machine.run_invariant (P := fun m ↦ m.KeepsFrame names entry)
    (fun _ _ hm hstep ↦ Machine.keepsFrame_step hm hstep) hrun h
  obtain ⟨hlimits, -, hscope, hdepth⟩ := hend
  exact ⟨hscope, hdepth, hlimits⟩

/-- An evaluation binds the names that its expression binds, and no others. -/
theorem rebinds_of_evaluate {fuel : Nat} {s s' : State} {e : Tree} {r : Except Fault Value}
    (h : s.evaluate fuel e = some (r, s')) : s.Rebinds e.assigned s' := by
  have hstart : (Machine.start (e.marked s.nextSite).1
      { s with nextSite := (e.marked s.nextSite).2 }).KeepsFrame e.assigned s := by
    refine ⟨rfl, ?_, .refl, rfl⟩
    change (e.marked s.nextSite).1.assigned ⊆ e.assigned
    rw [Expr.assigned_marked]
    exact List.Subset.refl _
  exact rebinds_of_run h hstart

/-- A call of a function, however it ends, leaves its caller's scope as it was. -/
theorem rebinds_of_call {fuel : Nat} {s s' : State} {f : Function} {v : Value}
    {r : Except Fault Value} (h : Machine.run fuel ⟨.value v, [.enter f], s⟩ = some (r, s')) :
    s.Rebinds [] s' :=
  rebinds_of_run h ⟨rfl, List.nil_subset _, .refl, rfl⟩

/-- An evaluation that ends, with a value or with a fault, leaves the depth, the limits and the
enclosing frames as they were. It unbinds no name of the current frame, and changes none that its
expression does not bind itself. A call of a function that ends, whatever work waits for it, goes on
in the very scope that it was made from. -/
theorem frame_of_evaluate (fuel : Nat) (s : State) :
    (∀ (e : Tree) (r : Except Fault Value) (s' : State), s.evaluate fuel e = some (r, s') →
      s'.depth = s.depth ∧ s'.limits = s.limits ∧ s'.scope.parents = s.scope.parents ∧
      (∀ name, s.scope.containsLocal name = true → s'.scope.containsLocal name = true) ∧
      ∀ name, name ∉ e.assigned → s'.scope.frame.get? name = s.scope.frame.get? name) ∧
    ∀ (f : Function) (v : Value) (r : Except Fault Value) (s' : State),
      Machine.run fuel ⟨.value v, [.enter f], s⟩ = some (r, s') →
      s'.scope = s.scope ∧ s'.depth = s.depth ∧ s'.limits = s.limits ∧
      ∀ work, ∃ n, ∀ k, Machine.run (n + k) ⟨.value v, .enter f :: work, s⟩ =
        Machine.run k ⟨Machine.ofResult r, work, s'⟩ := by
  constructor
  · intro e r s' h
    obtain ⟨hscope, hdepth, hlimits⟩ := rebinds_of_evaluate h
    exact ⟨hdepth, hlimits, hscope.parents_eq, fun _ ↦ hscope.containsLocal,
      fun _ ↦ hscope.get?_eq⟩
  · intro f v r s' h
    obtain ⟨hscope, hdepth, hlimits⟩ := rebinds_of_call h
    exact ⟨hscope.eq_of_nil, hdepth, hlimits, Machine.run_above h⟩

/-- A function that binds a variable of its caller's, and another one, before it fails. -/
def intruder : Function :=
  ⟨0, "f", "p", .block [.assign "x" (.var "p"), .assign "y" (.binary .divide (.int 1) (.int 0))]⟩

/-- A state where that function and a variable are bound. -/
def intruded : State :=
  ((State.fresh .standard .unlimited .silent).define intruder).bind "x" (.int 1)

/-- The call fails behind an assignment of the caller's. The function's own assignments are gone. -/
theorem frame_of_evaluate_intruder :
    (∃ r s', intruded.evaluate 40 (.binary .add (.assign "z" (.int 3)) (.call "f" (.int 2))) =
        some (r, s') ∧ s'.depth = 0 ∧ s'.scope.parents = [] ∧
      s'.scope.containsLocal "x" = true ∧
      s'.scope.frame.get? "x" = intruded.scope.frame.get? "x" ∧ s'.scope.frame.get? "y" = none) ∧
    ∃ r s', Machine.run 40 ⟨.value (.int 2), [.enter intruder], intruded⟩ = some (r, s') ∧
      s'.scope = intruded.scope := by
  obtain ⟨hevaluate, hcall⟩ := frame_of_evaluate 40 intruded
  constructor
  · refine ⟨_, _, rfl, ?_⟩
    obtain ⟨hdepth, -, hparents, hbound, hframe⟩ :=
      hevaluate (.binary .add (.assign "z" (.int 3)) (.call "f" (.int 2))) _ _ rfl
    exact ⟨hdepth, hparents, hbound "x" rfl, hframe "x" (by decide), hframe "y" (by decide)⟩
  · exact ⟨_, _, rfl, (hcall intruder (.int 2) _ _ rfl).1⟩

end ExprLang.Interpreter
