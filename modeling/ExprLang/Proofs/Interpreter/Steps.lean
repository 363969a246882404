import ExprLang.Proofs.Expr.Shape
import ExprLang.Proofs.Interpreter.Actions
import ExprLang.Proofs.Scope

/-!
What one step of an evaluation can do to scopes, to the depth of calls and to the count of condition
checks (`Effect`). It works in the current frame and binds there none but the names that its
expression or its work still has to bind, or it enters or leaves a call, or it is one of the steps
by which a loop goes on. What every step preserves holds when a run ends (`run_invariant`). A step
does not look at the work that waits below its own, so a run with such work is a run without it, and
then the rest (`run_above`).
-/

set_option autoImplicit false

namespace ExprLang.Interpreter

/-- The names that waiting work still binds in the frame it waits in. -/
def Work.assigned : Work → List String
  | rightOperand _ right => right.assigned
  | bind name => [name]
  | sequence rest => Expr.assignedList rest
  | choose onTrue onFalse => onTrue.assigned ++ Expr.assignedOption onFalse
  | test condition body _ | again condition body => condition.assigned ++ body.assigned
  | element _ rest => Expr.assignedList rest
  | .index e => e.assigned
  | cellIndex e value => e.assigned ++ value.assigned
  | cellValue _ value => value.assigned
  | operate .. | applyBuiltin _ | enter _ | leave _ | read _ | write .. => []

/-- The names that an expression about to be evaluated binds. -/
def Focus.assigned : Focus → List String
  | eval e => e.assigned
  | value _ | fault _ => []

/-- The names that a task still binds. -/
def Task.assigned : Task → List String
  | eval e => e.assigned
  | give _ w => w.assigned

/-- The names that an action binds. -/
def Action.assigned : Action → List String
  | bind name _ => [name]
  | define f => [f.name]
  | _ => []

/-- Waits for the end of a call. -/
def Work.isLeave : Work → Bool
  | leave _ => true
  | _ => false

/-- Waits for a part of a loop, so that the loop can go on. -/
def Work.isLoop : Work → Bool
  | test .. | again .. => true
  | _ => false

/-- The scope may have got new bindings of some names; depth and limits are the same. -/
structure State.Rebinds (names : List String) (s t : State) : Prop where
  scope : s.scope.Rebinds names t.scope
  depth : t.depth = s.depth
  limits : t.limits = s.limits

theorem State.Rebinds.mono {names more : List String} {s t : State} (h : s.Rebinds names t)
    (hsubset : names ⊆ more) : s.Rebinds more t :=
  ⟨h.scope.mono hsubset, h.depth, h.limits⟩

namespace Machine

/-- The next step enters a loop, or checks the condition of one again. -/
def checks : Focus → List Work → Bool
  | .eval (.loop _ _), _ => true
  | .value _, .again _ _ :: _ => true
  | _, _ => false

/-- What a step does to scopes, calls and loops. -/
inductive Effect : Machine → Machine → Prop
  /-- A step inside the current frame, which binds and leaves to be bound only names that were to
  be bound before. It ends loops at most. -/
  | within {focus focus' : Focus} (old new rest : List Work) {s s' : State}
      (hold : old.length ≤ 1 ∧ ∀ w ∈ old, w.isLeave = false ∧ (w.isLoop = true → new = []))
      (hnew : ∀ w ∈ new, w.isLeave = false ∧ w.isLoop = false)
      (hchecks : checks focus (old ++ rest) = false)
      (hassigned : focus'.assigned ++ new.flatMap Work.assigned ⊆
        focus.assigned ++ old.flatMap Work.assigned)
      (hstate : s.Rebinds (focus.assigned ++ old.flatMap Work.assigned) s')
      (hcount : s'.iterations = s.iterations) :
      Effect ⟨focus, old ++ rest, s⟩ ⟨focus', new ++ rest, s'⟩
  | enter (f : Function) (v : Value) (rest : List Work) {s : State}
      (h : s.depth < s.limits.depth) :
      Effect ⟨.value v, .enter f :: rest, s⟩ ⟨.eval f.body, .leave s.scope :: rest, s.enterCall f v⟩
  | leave (r : Except Fault Value) (caller : Scope) (rest : List Work) (s : State) :
      Effect ⟨ofResult r, .leave caller :: rest, s⟩ ⟨ofResult r, rest, s.leaveCall caller⟩
  /-- A loop is entered and checks its condition for the first time. -/
  | enterLoop (condition body : Code) (rest : List Work) {s s' : State}
      (hstate : s.Rebinds [] s') (hcount : s'.iterations = 1) :
      Effect ⟨.eval (.loop condition body), rest, s⟩
        ⟨.eval condition, .test condition body .void :: rest, s'⟩
  /-- The condition held. -/
  | turn (condition body : Code) (last v : Value) (rest : List Work) (s : State) :
      Effect ⟨.value v, .test condition body last :: rest, s⟩
        ⟨.eval body, .again condition body :: rest, s⟩
  /-- A loop checks its condition again. -/
  | check (condition body : Code) (v : Value) (rest : List Work) {s s' : State}
      (h : s.iterations < s.limits.iterations) (hstate : s.Rebinds [] s')
      (hcount : s'.iterations = s.iterations + 1) :
      Effect ⟨.value v, .again condition body :: rest, s⟩
        ⟨.eval condition, .test condition body v :: rest, s'⟩
  /-- A loop may not check its condition again. -/
  | refuse (condition body : Code) (v : Value) (rest : List Work) {s s' : State}
      (h : s.limits.iterations ≤ s.iterations) (hstate : s.Rebinds [] s')
      (hcount : s'.iterations = s.iterations) :
      Effect ⟨.value v, .again condition body :: rest, s⟩
        ⟨.fault (.runtime (.loopLimit s.limits.iterations)), rest, s'⟩

theorem assigned_ofResult (r : Except Fault Value) : (ofResult r).assigned = [] := by
  cases r <;> rfl

theorem countIteration_rebinds (s : State) : s.Rebinds [] s.countIteration.2 := by
  simp only [State.countIteration]
  split_ifs
  · exact ⟨.refl, rfl, rfl⟩
  · exact ⟨.refl, rfl, rfl⟩
  · exact ⟨.refl, rfl, rfl⟩

/-- Below the limit a condition check counts as one more. -/
theorem beginCheck_of_lt {s : State} (h : s.iterations < s.limits.iterations)
    (condition body : Code) (last : Value) (work : List Work) :
    s.countIteration.2.iterations = s.iterations + 1 ∧
      beginCheck condition body last work s =
        ⟨.eval condition, .test condition body last :: work, s.countIteration.2⟩ := by
  have hroom := Nat.not_le.mpr h
  constructor
  · simp only [State.countIteration, if_neg hroom]
    split_ifs <;> rfl
  · simp only [beginCheck, State.countIteration, if_neg hroom]

/-- At the limit a condition check is refused. -/
theorem beginCheck_of_le {s : State} (h : s.limits.iterations ≤ s.iterations)
    (condition body : Code) (last : Value) (work : List Work) :
    s.countIteration.2.iterations = s.iterations ∧
      beginCheck condition body last work s =
        ⟨.fault (.runtime (.loopLimit s.limits.iterations)), work, s.countIteration.2⟩ := by
  constructor
  · simp only [State.countIteration, if_pos h]
    rfl
  · simp only [beginCheck, State.countIteration, if_pos h]

/-- A condition check is made or refused, and it is counted if it is made. -/
theorem beginCheck_cases (condition body : Code) (last : Value) (work : List Work) (s : State) :
    beginCheck condition body last work s =
        ⟨.eval condition, .test condition body last :: work, s.countIteration.2⟩ ∨
      beginCheck condition body last work s =
        ⟨.fault (.runtime (.loopLimit s.limits.iterations)), work, s.countIteration.2⟩ := by
  by_cases hlimit : s.iterations < s.limits.iterations
  · exact .inl (beginCheck_of_lt hlimit condition body last work).2
  · exact .inr (beginCheck_of_le (Nat.not_lt.mp hlimit) condition body last work).2

/-- A loop that is entered checks its condition, since every limit leaves room for one check. -/
theorem begin_loop (condition body : Code) (work : List Work) (s : State) :
    ∃ s', begin work s (.loop condition body) =
        ⟨.eval condition, .test condition body .void :: work, s'⟩ ∧
      s.Rebinds [] s' ∧ s'.iterations = 1 := by
  have hroom : (s.enterLoop condition).iterations < (s.enterLoop condition).limits.iterations :=
    s.limits.iterations_pos
  obtain ⟨hcount, hbegin⟩ := beginCheck_of_lt hroom condition body .void work
  obtain ⟨hscope, hdepth, hlimits⟩ := countIteration_rebinds (s.enterLoop condition)
  exact ⟨_, hbegin, ⟨hscope, hdepth, hlimits⟩, hcount⟩

end Machine

/-! ### Effects -/

/-- An action binds its names and counts no condition check. -/
theorem Action.rebinds (a : Action) (s : State) :
    s.Rebinds a.assigned (a.act s).2 ∧ (a.act s).2.iterations = s.iterations := by
  cases a with
  | bind name v => exact ⟨⟨.put .refl List.mem_cons_self _, rfl, rfl⟩, rfl⟩
  | define f => exact ⟨⟨.put .refl List.mem_cons_self _, rfl, rfl⟩, rfl⟩
  | builtin b v =>
    obtain ⟨r, output, hact, -⟩ := s.applyBuiltin_cases b v
    rw [act, hact]
    exact ⟨⟨.refl, rfl, rfl⟩, rfl⟩
  | write address index value =>
    rw [act]
    split <;> exact ⟨⟨.refl, rfl, rfl⟩, rfl⟩
  | _ => exact ⟨⟨.refl, rfl, rfl⟩, rfl⟩

section Tasks

variable {t : Task} {e : Code} {w : Work} {a : Action}

theorem Task.assigned_eq (t : Task) :
    t.focus.assigned ++ t.work.flatMap Work.assigned = t.assigned := by
  cases t with
  | eval e => exact List.append_nil _
  | give v w => exact List.append_nil _

/-- Whatever is bound later was to be bound before. -/
theorem Splits.assigned (h : Splits t e w) : e.assigned ++ w.assigned ⊆ t.assigned := by
  cases h <;> simp [Task.assigned, Work.assigned, Expr.assigned, Expr.assignedList]

theorem Settles.assigned (h : Settles t a) : a.assigned ⊆ t.assigned := by
  cases h <;> simp [Task.assigned, Action.assigned, Work.assigned, Expr.assigned]

/-- The task leaves no call and begins no turn of a loop. It ends a loop only if no work is new. -/
structure Task.Stays (t : Task) (new : List Work) : Prop where
  work : ∀ w ∈ t.work, w.isLeave = false ∧ (w.isLoop = true → new = [])
  checks : ∀ rest, Machine.checks t.focus (t.work ++ rest) = false

theorem Splits.stays (h : Splits t e w) :
    t.Stays [w] ∧ w.isLeave = false ∧ w.isLoop = false := by
  cases h <;>
    exact ⟨⟨by simp [Task.work, Work.isLeave, Work.isLoop], fun _ ↦ rfl⟩, rfl, rfl⟩

theorem Settles.stays (h : Settles t a) : t.Stays [] := by
  cases h with
  | @mistyped _ w hw _ =>
    cases w with
    | choose | test | element | index | read | cellIndex | cellValue | write =>
      exact ⟨by simp [Task.work, Work.isLeave], fun _ ↦ rfl⟩
    | _ => contradiction
  | _ => exact ⟨by simp [Task.work, Work.isLeave], fun _ ↦ rfl⟩

end Tasks

namespace Machine

theorem effect_within {t : Task} (new : List Work) {focus : Focus} (rest : List Work)
    {s s' : State} (ht : t.Stays new) (hnew : ∀ w ∈ new, w.isLeave = false ∧ w.isLoop = false)
    (hassigned : focus.assigned ++ new.flatMap Work.assigned ⊆ t.assigned)
    (hstate : s.Rebinds t.assigned s') (hcount : s'.iterations = s.iterations) :
    Effect (t.machine rest s) ⟨focus, new ++ rest, s'⟩ := by
  have hsingle : t.work.length ≤ 1 := by cases t <;> simp [Task.work]
  rw [← t.assigned_eq] at hassigned hstate
  exact .within t.work new rest ⟨hsingle, ht.work⟩ hnew (ht.checks rest) hassigned hstate hcount

theorem effect_of_issues {t : Task} {i : Instruction} (h : Issues t i) (rest : List Work)
    (s : State) : Effect (t.machine rest s) (i.perform rest s) := by
  have hsame : ∀ names, s.Rebinds names s := fun _ ↦ ⟨.refl, rfl, rfl⟩
  cases h with
  | @settle _ a h =>
    obtain ⟨hstate, hcount⟩ := a.rebinds s
    refine effect_within [] rest h.stays (by simp) ?_ (hstate.mono h.assigned) hcount
    simp [assigned_ofResult]
  | push h =>
    obtain ⟨hstays, hw⟩ := h.stays
    refine effect_within [_] rest hstays (by simpa using hw) ?_ (hsame _) rfl
    simpa [Focus.assigned] using h.assigned
  | onTrue | onFalse =>
    refine effect_within [] rest ⟨by simp [Task.work, Work.isLeave], fun _ ↦ rfl⟩ (by simp) ?_
      (hsame _) rfl
    simp [Focus.assigned, Task.assigned, Work.assigned, Expr.assignedOption]
  | @find name hname argument =>
    have hstays : ∀ new, (Task.eval (.call name argument)).Stays new :=
      fun _ ↦ ⟨by simp [Task.work], fun _ ↦ rfl⟩
    rw [Instruction.perform]
    split
    · refine effect_within [_] rest (hstays _) (by simp [Work.isLeave, Work.isLoop]) ?_
        (hsame _) rfl
      simp [Focus.assigned, Task.assigned, Work.assigned, Expr.assigned]
    · exact effect_within [] rest (hstays _) (by simp) (List.nil_subset _) (hsame _) rfl
  | enter v f =>
    rw [Instruction.perform]
    split_ifs with hlimit
    · exact effect_within [] rest ⟨by simp [Task.work, Work.isLeave], fun _ ↦ rfl⟩ (by simp)
        (List.nil_subset _) (hsame _) rfl
    · exact .enter f v rest (Nat.not_le.mp hlimit)
  | leave v caller => exact .leave (.ok v) caller rest s
  | enterLoop condition body =>
    obtain ⟨s', hbegin, hstate, hcount⟩ := begin_loop condition body rest s
    rw [begin_eq] at hbegin
    exact hbegin ▸ .enterLoop condition body rest hstate hcount
  | turn v condition body last => exact .turn condition body last v rest s
  | check v condition body =>
    have hstate := countIteration_rebinds s
    rw [Instruction.perform]
    by_cases hlimit : s.iterations < s.limits.iterations
    · obtain ⟨hcount, hcheck⟩ := beginCheck_of_lt hlimit condition body v rest
      exact hcheck ▸ .check condition body v rest hlimit hstate hcount
    · obtain ⟨hcount, hcheck⟩ := beginCheck_of_le (Nat.not_lt.mp hlimit) condition body v rest
      exact hcheck ▸ .refuse condition body v rest (Nat.not_lt.mp hlimit) hstate hcount

/-- Every step has one of these effects. -/
theorem effect_step {m m' : Machine} (h : m.step = .inl m') : Effect m m' := by
  cases transition_of_step h with
  | perform t rest s => exact effect_of_issues t.issues rest s
  | pass f w rest s =>
    cases w with
    | leave caller => exact .leave (.error f) caller rest s
    | _ =>
      exact .within [_] [] rest (by simp [Work.isLeave]) (by simp) rfl (List.nil_subset _)
        ⟨.refl, rfl, rfl⟩ rfl

/-! ### Runs -/

/-- A machine that has an outcome has nothing left to do. -/
theorem work_of_step_inr {m : Machine} {r : Except Fault Value} {s : State}
    (h : m.step = .inr (r, s)) : m = ⟨ofResult r, [], s⟩ := by
  obtain ⟨focus, work, t⟩ := m
  cases focus with
  | eval e => contradiction
  | value v | fault f =>
    cases work with
    | nil =>
      cases h
      rfl
    | cons w work => contradiction

/-- What every step preserves holds of the machine that a run ends with. -/
theorem run_invariant {P : Machine → Prop} (hstep : ∀ m m', P m → m.step = .inl m' → P m')
    {fuel : Nat} {m : Machine} {r : Except Fault Value} {s : State}
    (h : m.run fuel = some (r, s)) (hm : P m) : P ⟨ofResult r, [], s⟩ := by
  induction fuel generalizing m with
  | zero => contradiction
  | succ fuel ih =>
    rw [run] at h
    cases hnext : m.step with
    | inl m' =>
      rw [hnext] at h
      exact ih h (hstep m m' hm hnext)
    | inr outcome =>
      rw [hnext] at h
      cases h
      exact work_of_step_inr hnext ▸ hm

/-! ### Work that waits underneath -/

/-- The machine with more work to do afterwards. -/
def above (m : Machine) (rest : List Work) : Machine := { m with work := m.work ++ rest }

theorem beginCheck_above (condition body : Code) (last : Value) (work : List Work) (s : State)
    (rest : List Work) : beginCheck condition body last (work ++ rest) s =
      (beginCheck condition body last work s).above rest := by
  simp only [beginCheck]
  split <;> rfl

theorem machine_above (t : Task) (work rest : List Work) (s : State) :
    (t.machine work s).above rest = t.machine (work ++ rest) s :=
  congrArg (Machine.mk _ · s) (List.append_assoc _ _ _)

theorem perform_above (i : Instruction) (work rest : List Work) (s : State) :
    i.perform (work ++ rest) s = (i.perform work s).above rest := by
  cases i with
  | find name argument =>
    simp only [Instruction.perform]
    cases s.functions.get? name <;> rfl
  | enter f argument =>
    simp only [Instruction.perform]
    split_ifs <;> rfl
  | enterLoop condition body => exact beginCheck_above ..
  | check condition body last => exact beginCheck_above ..
  | _ => rfl

/-- A step does not look at the work underneath. -/
theorem step_above {m m' : Machine} (h : m.step = .inl m') (rest : List Work) :
    (m.above rest).step = .inl (m'.above rest) := by
  cases transition_of_step h with
  | perform t work s =>
    rw [machine_above, step_machine, perform_above]
  | pass => rfl

/-- A run with work underneath goes on from the result of the run without it. -/
theorem run_above {m : Machine} {fuel : Nat} {r : Except Fault Value} {s : State}
    (h : m.run fuel = some (r, s)) (rest : List Work) :
    ∃ n, ∀ k, (m.above rest).run (n + k) = run k ⟨ofResult r, rest, s⟩ := by
  induction fuel generalizing m with
  | zero => contradiction
  | succ fuel ih =>
    rw [run] at h
    cases hnext : m.step with
    | inl m' =>
      rw [hnext] at h
      obtain ⟨n, hn⟩ := ih h
      refine ⟨n + 1, fun k ↦ ?_⟩
      rw [Nat.add_right_comm, run, step_above hnext rest]
      exact hn k
    | inr outcome =>
      rw [hnext] at h
      cases h
      refine ⟨0, fun k ↦ ?_⟩
      rw [Nat.zero_add, work_of_step_inr hnext]
      rfl

end Machine

end ExprLang.Interpreter
