import ExprLang.Proofs.Interpreter.FlatLoops
import Mathlib.Logic.Relation

/-!
The fence around calls. At every moment of an execution the depth is the number of calls that wait
to be left, and around the current frame stand the frames of their callers, down to those that the
execution began with (`KeepsCalls`). What waits to enter a function is a call whose argument is
being evaluated (`tracesCalls_of_during`). So a call is refused, after its argument was evaluated,
exactly if as many calls are active as the limit says, and however an execution ends, no call is
active then (`call_fence`).
-/

set_option autoImplicit false

namespace ExprLang.Interpreter

/-- How many calls are active. -/
def activeCalls (work : List Work) : Nat := work.countP Work.isLeave

theorem activeCalls_leave (caller : Scope) (work : List Work) :
    activeCalls (.leave caller :: work) = activeCalls work + 1 :=
  List.countP_cons_of_pos rfl

theorem activeCalls_cons {w : Work} (h : w.isLeave = false) (work : List Work) :
    activeCalls (w :: work) = activeCalls work :=
  List.countP_cons_of_neg (by simp [h])

theorem activeCalls_append {old : List Work} (h : ∀ w ∈ old, w.isLeave = false)
    (rest : List Work) : activeCalls (old ++ rest) = activeCalls rest := by
  have hnone : old.countP Work.isLeave = 0 :=
    List.countP_eq_zero.mpr fun w hw ↦ by simp [h w hw]
  rw [activeCalls, List.countP_append, hnone, Nat.zero_add]
  rfl

/-! ### The chain of frames -/

/-- The frames around the current one are those of the caller, if a call is active, and the frames
around that one are those of its own caller, and so on down to `root`. -/
def Chained (root : List Frame) : (parents : List Frame) → List Work → Prop
  | parents, [] => parents = root
  | parents, .leave caller :: work => parents = caller.frames ∧ Chained root caller.parents work
  | parents, _ :: work => Chained root parents work

namespace Chained

variable {root parents : List Frame} {work : List Work}

theorem cons_iff {w : Work} (h : w.isLeave = false) :
    Chained root parents (w :: work) ↔ Chained root parents work := by
  cases w <;> first | rfl | contradiction

theorem append_iff {old : List Work} (h : ∀ w ∈ old, w.isLeave = false) :
    Chained root parents (old ++ work) ↔ Chained root parents work := by
  induction old with
  | nil => rfl
  | cons w old ih =>
    obtain ⟨hw, hold⟩ := List.forall_mem_cons.mp h
    rw [List.cons_append, cons_iff hw, ih hold]

/-- Each active call has added a frame. -/
theorem frames (h : Chained root parents work) :
    parents.length = root.length + activeCalls work ∧ root <:+ parents := by
  induction work generalizing parents with
  | nil =>
    subst h
    exact ⟨rfl, List.suffix_refl _⟩
  | cons w work ih =>
    cases hw : w.isLeave with
    | false =>
      rw [activeCalls_cons hw]
      exact ih ((cons_iff hw).mp h)
    | true =>
      cases w with
      | leave caller =>
        obtain ⟨rfl, hcaller⟩ := h
        obtain ⟨hlength, hsuffix⟩ := ih hcaller
        refine ⟨?_, hsuffix.trans (List.suffix_cons _ _)⟩
        change caller.parents.length + 1 = _
        rw [hlength, activeCalls_leave, Nat.add_assoc]
      | _ => contradiction

end Chained

/-- What is true of calls at every moment. -/
structure Machine.KeepsCalls (root : List Frame) (m : Machine) : Prop where
  depth : m.state.depth = activeCalls m.work
  limit : m.state.depth ≤ m.state.limits.depth
  chain : Chained root m.state.scope.parents m.work

namespace Machine

/-- Work that does not leave a call may be replaced by other such work. -/
theorem KeepsCalls.exchange {root : List Frame} {names : List String} {focus focus' : Focus}
    {s s' : State} (old new : List Work) {rest : List Work}
    (h : KeepsCalls root ⟨focus, old ++ rest, s⟩) (hold : ∀ w ∈ old, w.isLeave = false)
    (hnew : ∀ w ∈ new, w.isLeave = false) (hstate : s.Rebinds names s') :
    KeepsCalls root ⟨focus', new ++ rest, s'⟩ := by
  obtain ⟨hdepth, hlimit, hchain⟩ := h
  refine ⟨?_, ?_, ?_⟩
  · rw [activeCalls_append hnew, ← activeCalls_append hold]
    exact hstate.depth.trans hdepth
  · simpa only [hstate.depth, hstate.limits] using hlimit
  · simp only [hstate.scope.parents_eq]
    exact (Chained.append_iff hnew).mpr ((Chained.append_iff hold).mp hchain)

theorem keepsCalls_step {root : List Frame} {m m' : Machine} (h : m.KeepsCalls root)
    (hstep : m.step = .inl m') : m'.KeepsCalls root := by
  have hplain : ∀ w : Work, w.isLeave = false → ∀ x ∈ [w], x.isLeave = false := by simp
  cases effect_step hstep with
  | within old new rest hold hnew _ _ hstate _ =>
    exact .exchange old new h (fun w hw ↦ (hold.2 w hw).1) (fun w hw ↦ (hnew w hw).1) hstate
  | enter f v rest hroom =>
    obtain ⟨hdepth, -, hchain⟩ := h
    refine ⟨?_, hroom, rfl, hchain⟩
    rw [activeCalls_leave]
    exact congrArg (· + 1) (hdepth.trans (activeCalls_cons rfl rest))
  | leave r caller rest s =>
    obtain ⟨hdepth, hlimit, -, hchain⟩ := h
    exact ⟨congrArg (· - 1) (hdepth.trans (activeCalls_leave caller rest)),
      Nat.le_trans (Nat.sub_le _ _) hlimit, hchain⟩
  | enterLoop condition body rest hstate _ =>
    exact .exchange [] [_] h (List.forall_mem_nil _) (hplain _ rfl) hstate
  | turn condition body last v rest s =>
    have hsame : s.Rebinds [] s := ⟨.refl, rfl, rfl⟩
    exact .exchange [_] [_] h (hplain _ rfl) (hplain _ rfl) hsame
  | check condition body v rest _ hstate _ =>
    exact .exchange [_] [_] h (hplain _ rfl) (hplain _ rfl) hstate
  | refuse condition body v rest _ hstate _ =>
    exact .exchange [_] [] h (hplain _ rfl) (List.forall_mem_nil _) hstate

end Machine

/-- Assumes: no call is active when the execution begins. -/
theorem keepsCalls_of_during {s : State} {program : List Tree} {m : Machine}
    (h : During s program m) (hdepth : s.depth = 0) : m.KeepsCalls s.scope.parents := by
  induction h with
  | start s e rest =>
    refine ⟨hdepth, ?_, rfl⟩
    change s.depth ≤ _
    rw [hdepth]
    exact Nat.zero_le _
  | step _ hstep ih => exact Machine.keepsCalls_step (ih hdepth) hstep
  | later hfirst _ ih =>
    obtain ⟨hscope, hsame, -⟩ := rebinds_of_evaluate hfirst
    rw [← hscope.parents_eq]
    exact ih (hsame.trans hdepth)

theorem depth_of_executeFrom {fuel : Nat} {last : Value} {s t : State} {program : List Tree}
    {r : Except Fault Value} (h : s.executeFrom fuel last program = some (r, t)) :
    t.depth = s.depth := by
  induction program generalizing s last with
  | nil =>
    cases h
    rfl
  | cons e rest ih =>
    rw [State.executeFrom] at h
    cases hfirst : s.evaluate fuel e with
    | none => simp [hfirst] at h
    | some first =>
      obtain ⟨r', t'⟩ := first
      rw [hfirst] at h
      have hsame := (rebinds_of_evaluate hfirst).depth
      cases r' with
      | error f =>
        cases h
        exact hsame
      | ok v => exact (ih h).trans hsame

/-! ### Step by step -/

namespace Machine

def Next (m m' : Machine) : Prop := m.step = .inl m'

/-- Work underneath does not change the steps. -/
theorem steps_above {m m' : Machine} (h : Relation.ReflTransGen Next m m') (rest : List Work) :
    Relation.ReflTransGen Next (m.above rest) (m'.above rest) :=
  h.lift (·.above rest) fun _ _ hstep ↦ step_above hstep rest

theorem exists_run_of_steps {m m' : Machine} {fuel : Nat} {outcome : Outcome}
    (h : Relation.ReflTransGen Next m m') (hrun : m'.run fuel = some outcome) :
    ∃ more, m.run more = some outcome := by
  induction h using Relation.ReflTransGen.head_induction_on with
  | refl => exact ⟨fuel, hrun⟩
  | head hstep _ ih =>
    obtain ⟨more, hmore⟩ := ih
    refine ⟨more + 1, ?_⟩
    rw [run, hstep]
    exact hmore

/-- An evaluation that ends with a value is one whose steps lead to it. -/
theorem evaluates_iff_steps {e : Code} {s t : State} {v : Value} :
    Evaluates e s (.ok v) t ↔ Relation.ReflTransGen Next (.start e s) ⟨.value v, [], t⟩ := by
  constructor
  · rintro ⟨fuel, hrun⟩
    exact run_invariant (P := fun m ↦ Relation.ReflTransGen Next (.start e s) m)
      (fun _ _ hm hstep ↦ hm.tail hstep) hrun .refl
  · intro hsteps
    exact exists_run_of_steps hsteps (show run 1 _ = some (.ok v, t) from rfl)

end Machine

/-! ### What enters functions, and what is refused -/

/-- No ordinary fault says that too many calls are active. -/
theorem not_ordinary_callLimit (n : Int) : ¬(Fault.runtime (.callLimit n)).Ordinary :=
  fun h ↦ by cases h

namespace Machine

/-- No function waits to be entered, and none was refused. -/
structure NoCall (m : Machine) : Prop where
  work : ∀ f, .enter f ∉ m.work
  focus : ∀ n, m.focus ≠ .fault (.runtime (.callLimit n))

theorem NoCall.value (v : Value) (s : State) : NoCall ⟨.value v, [], s⟩ :=
  ⟨by simp, by simp⟩

theorem NoCall.push (e : Code) {w : Work} (hw : ∀ f, w ≠ .enter f) (s : State) :
    NoCall ⟨.eval e, [w], s⟩ :=
  ⟨fun f hf ↦ hw f (List.mem_singleton.mp hf).symm, by simp⟩

theorem NoCall.beginCheck (condition body : Code) (last : Value) (s : State) :
    (beginCheck condition body last [] s).NoCall := by
  rcases beginCheck_cases condition body last [] s with hcheck | hrefuse
  · rw [hcheck]
    exact .push condition (by simp) _
  · rw [hrefuse]
    exact ⟨by simp, by simp⟩

/-- Whatever settles a task, it is not that too many calls are active. -/
theorem NoCall.settle {t : Task} {a : Action} (h : Settles t a) (s : State) :
    NoCall ⟨ofResult (a.act s).1, [], (a.act s).2⟩ := by
  refine ⟨by simp, fun n hfocus ↦ ?_⟩
  cases hact : (a.act s).1 with
  | ok v => simp [hact, ofResult] at hfocus
  | error f =>
    rw [hact] at hfocus
    obtain rfl := Focus.fault.inj hfocus
    rcases h.fault hact with hordinary | ⟨-, hmissing⟩ | ⟨_, _, _, -, hunknown⟩
    · exact not_ordinary_callLimit n hordinary
    · simp at hmissing
    · simp at hunknown

/-- What a step does about calls, apart from the work below: nothing, or it has found the function
that a call names, or it refuses to enter a function. -/
inductive Calls (s : State) : Task → Machine → Prop
  | quiet {t : Task} {m : Machine} (h : m.NoCall) : Calls s t m
  | found {name : String} (argument : Code) {f : Function} (hname : Builtin.ofName? name = none)
      (hf : s.functions.get? name = some f) :
      Calls s (.eval (.call name argument)) ⟨.eval argument, [.enter f], s⟩
  | refused (v : Value) (f : Function) (h : s.limits.depth ≤ s.depth) :
      Calls s (.give v (.enter f)) ⟨.fault (.runtime (.callLimit s.limits.depth)), [], s⟩

theorem calls_of_issues {t : Task} {i : Instruction} (h : Issues t i) (s : State) :
    Calls s t (i.perform [] s) := by
  cases h with
  | settle ha => exact .quiet (.settle ha s)
  | push hsplit => exact .quiet (.push _ (by cases hsplit <;> simp) s)
  | onTrue | onFalse => exact .quiet ⟨by simp [Instruction.perform], by simp [Instruction.perform]⟩
  | @find name hname argument =>
    rw [Instruction.perform]
    cases hf : s.functions.get? name with
    | some f => exact .found argument hname hf
    | none => exact .quiet ⟨by simp, by simp⟩
  | enter v f =>
    rw [Instruction.perform]
    split_ifs with hlimit
    · exact .refused v f hlimit
    · exact .quiet (.push f.body (by simp) _)
  | leave v caller => exact .quiet (.value v _)
  | enterLoop condition body => exact .quiet (.beginCheck condition body .void _)
  | turn v condition body last => exact .quiet (.push body (by simp) s)
  | check v condition body => exact .quiet (.beginCheck condition body v s)

/-- The next step raises the fault; the machine is not on its way out with one already. -/
def Raises (m : Machine) (f : Fault) : Prop :=
  (∀ g, m.focus ≠ .fault g) ∧ ∃ m', m.step = .inl m' ∧ m'.focus = .fault f

/-- The fault is raised where a function was to be entered at the limit. -/
theorem raises_callLimit_iff {m : Machine} {n : Int} :
    m.Raises (.runtime (.callLimit n)) ↔
      ∃ v f base, m.focus = .value v ∧ m.work = .enter f :: base ∧
        m.state.limits.depth ≤ m.state.depth ∧ n = m.state.limits.depth := by
  constructor
  · rintro ⟨hnew, m', hstep, hfault⟩
    cases transition_of_step hstep with
    | pass f => exact absurd rfl (hnew f)
    | perform t work s =>
      rw [← List.nil_append work, perform_above] at hfault
      have hcalls := calls_of_issues t.issues s
      generalize t.instruction.perform [] s = top at hcalls hfault
      cases hcalls with
      | quiet hquiet => exact absurd hfault (hquiet.focus n)
      | found => contradiction
      | refused v f hlimit =>
        cases hfault
        exact ⟨v, f, work, rfl, rfl, hlimit, rfl⟩
  · rintro ⟨v, f, base, hfocus, hwork, hlimit, rfl⟩
    obtain ⟨focus, work, s⟩ := m
    subst hfocus hwork
    refine ⟨by simp, _, rfl, ?_⟩
    simp only [resume]
    rw [if_pos hlimit]

end Machine

/-! ### From the call to the function -/

theorem During.steps {s : State} {program : List Tree} {m m' : Machine} (h : During s program m)
    (hsteps : Relation.ReflTransGen Machine.Next m m') : During s program m' := by
  induction hsteps with
  | refl => exact h
  | tail _ hstep ih => exact ih.step hstep

/-- Above `base` the argument of a call of `f` is being evaluated, and has come as far as `m`. -/
def Awaits (s : State) (program : List Tree) (f : Function) (base : List Work) (m : Machine) :
    Prop :=
  ∃ name argument t, During s program ⟨.eval (.call name argument), base, t⟩ ∧
    Builtin.ofName? name = none ∧ t.functions.get? name = some f ∧
    Relation.ReflTransGen Machine.Next (.start argument t) m

theorem Awaits.step {s : State} {program : List Tree} {f : Function} {base : List Work}
    {m m' : Machine} (h : Awaits s program f base m) (hstep : m.step = .inl m') :
    Awaits s program f base m' := by
  obtain ⟨name, argument, t, hcall, hname, hf, hsteps⟩ := h
  exact ⟨name, argument, t, hcall, hname, hf, hsteps.tail hstep⟩

/-- Work that stands somewhere in what was put on top of other work, or in the other work. -/
theorem split_of_append {top work above base : List Work} {w : Work}
    (h : top ++ work = above ++ w :: base) :
    (∃ lower, above = top ++ lower ∧ work = lower ++ w :: base) ∨
      ∃ lower, top = above ++ w :: lower ∧ base = lower ++ work := by
  rcases List.append_eq_append_iff.mp h with ⟨lower, habove, hwork⟩ | ⟨lower, htop, hbase⟩
  · exact .inl ⟨lower, habove, hwork⟩
  · cases lower with
    | nil => exact .inl ⟨[], by simpa using htop.symm, hbase.symm⟩
    | cons x lower =>
      obtain ⟨rfl, rfl⟩ := List.cons.inj hbase
      exact .inr ⟨lower, htop, rfl⟩

/-- Whatever waits to enter a function waits for the argument of a call. -/
def TracesCalls (s : State) (program : List Tree) (m : Machine) : Prop :=
  ∀ f above base, m.work = above ++ .enter f :: base →
    Awaits s program f base ⟨m.focus, above, m.state⟩

theorem TracesCalls.perform {s u : State} {program : List Tree} {t : Task} {work : List Work}
    (h : TracesCalls s program (t.machine work u))
    (hduring : During s program (t.machine work u)) :
    TracesCalls s program (t.instruction.perform work u) := by
  have habove := fun lower ↦ Machine.perform_above t.instruction [] lower u
  intro f above base hwork
  rw [← List.nil_append work, habove] at hwork ⊢
  rcases split_of_append hwork with ⟨lower, rfl, hold⟩ | ⟨lower, htop, rfl⟩
  · have hbefore : (t.machine work u).work = (t.work ++ lower) ++ .enter f :: base := by
      rw [hold, Task.machine, List.append_assoc]
    refine (h f _ base hbefore).step ((Machine.step_machine t lower u).trans ?_)
    exact congrArg Sum.inl (habove lower)
  · -- The function is to be entered since this very step.
    have hcalls := Machine.calls_of_issues t.issues u
    generalize t.instruction.perform [] u = top at hcalls htop ⊢
    cases hcalls with
    | quiet hquiet => exact absurd (by simp [htop]) (hquiet.work f)
    | refused => simp at htop
    | @found name argument g hname hg =>
      cases above with
      | nil =>
        obtain ⟨henter, rfl⟩ := List.cons.inj htop
        obtain rfl := Work.enter.inj henter
        exact ⟨name, argument, u, hduring, hname, hg, .refl⟩
      | cons w above => simp at htop

theorem tracesCalls_of_during {s : State} {program : List Tree} {m : Machine}
    (h : During s program m) : TracesCalls s program m := by
  induction h with
  | start s e rest =>
    intro f above base hwork
    simp [State.starting, Machine.start] at hwork
  | later hfirst _ ih =>
    intro f above base hwork
    obtain ⟨name, argument, t, hcall, hfound⟩ := ih f above base hwork
    exact ⟨name, argument, t, .later hfirst hcall, hfound⟩
  | @step s program m m' h hstep ih =>
    cases Machine.transition_of_step hstep with
    | perform t work u => exact ih.perform h
    | pass g w work u =>
      intro f above base hwork
      exact (ih f (w :: above) base (congrArg (w :: ·) hwork)).step rfl

/-- The moment when a function that is defined is to be entered: a call of it was begun above
`base`, it was found in the table, and its argument has been evaluated. -/
inductive Entering (s : State) (program : List Tree) (base : List Work) : Machine → Prop
  | mk {name : String} {argument : Code} {f : Function} {v : Value} {t u : State}
      (hcall : During s program ⟨.eval (.call name argument), base, t⟩)
      (hname : Builtin.ofName? name = none) (hf : t.functions.get? name = some f)
      (hargument : Evaluates argument t (.ok v) u) :
      Entering s program base ⟨.value v, .enter f :: base, u⟩

/-- Whatever is to enter a function comes from a call, and the call comes to it. -/
theorem entering_iff {s : State} {program : List Tree} {base : List Work} {m : Machine} :
    Entering s program base m ↔
      During s program m ∧ ∃ v f, m.focus = .value v ∧ m.work = .enter f :: base := by
  constructor
  · rintro ⟨hcall, hname, hf, hargument⟩
    rename_i name argument f v t u
    have hbegin : Machine.Next ⟨.eval (.call name argument), base, t⟩
        ⟨.eval argument, .enter f :: base, t⟩ := by
      simp only [Machine.Next, Machine.step, Machine.begin, hname, hf]
    have hsteps := Machine.steps_above (Machine.evaluates_iff_steps.mp hargument) (.enter f :: base)
    exact ⟨(hcall.step hbegin).steps hsteps, v, f, rfl, rfl⟩
  · rintro ⟨hduring, v, f, hfocus, hwork⟩
    obtain ⟨name, argument, t, hcall, hname, hf, hsteps⟩ :=
      tracesCalls_of_during hduring f [] base hwork
    obtain ⟨focus, work, u⟩ := m
    subst hfocus hwork
    exact .mk hcall hname hf (Machine.evaluates_iff_steps.mpr hsteps)

/-- Assumes: no call is active when the execution begins. At every moment of it the depth is the
number of active calls, which is at most the limit, and the chain of frames is longer than in the
beginning by as many frames, with the same frames around. The fault for too many calls is raised
exactly at the moments when a function that is defined was called, its argument has been evaluated,
and as many calls are active as the limit says. If the execution ends, with a value or with a fault,
the depth is zero. -/
theorem call_fence {s : State} (hdepth : s.depth = 0) (program : List Tree) :
    (∀ m, During s program m →
      m.state.depth = activeCalls m.work ∧ m.state.depth ≤ s.limits.depth ∧
      m.state.scope.frames.length = s.scope.frames.length + m.state.depth ∧
      s.scope.parents <:+ m.state.scope.parents) ∧
    (∀ m n, During s program m ∧ m.Raises (.runtime (.callLimit n)) ↔
      n = s.limits.depth ∧
        ∃ base, Entering s program base m ∧ activeCalls base = s.limits.depth) ∧
    ∀ fuel r t, s.execute fuel program = some (r, t) → t.depth = 0 := by
  have hcalls := fun m (h : During s program m) ↦ keepsCalls_of_during h hdepth
  refine ⟨fun m h ↦ ?_, fun m n ↦ ?_, fun fuel r t h ↦ ?_⟩
  · obtain ⟨hactive, hlimit, hchain⟩ := hcalls m h
    obtain ⟨hlength, hsuffix⟩ := hchain.frames
    rw [limits_of_during h] at hlimit
    refine ⟨hactive, hlimit, ?_, hsuffix⟩
    change m.state.scope.parents.length + 1 = s.scope.parents.length + 1 + _
    omega
  · rw [Machine.raises_callLimit_iff]
    constructor
    · rintro ⟨h, v, f, base, hfocus, hwork, hfull, rfl⟩
      obtain ⟨hactive, hlimit, -⟩ := hcalls m h
      have hlimits := limits_of_during h
      rw [hwork, activeCalls_cons rfl] at hactive
      rw [hlimits] at hlimit hfull ⊢
      exact ⟨rfl, base, entering_iff.mpr ⟨h, v, f, hfocus, hwork⟩, by omega⟩
    · rintro ⟨rfl, base, hentering, hbase⟩
      obtain ⟨h, v, f, hfocus, hwork⟩ := entering_iff.mp hentering
      have hactive := (hcalls m h).depth
      rw [hwork, activeCalls_cons rfl, hbase] at hactive
      rw [limits_of_during h]
      exact ⟨h, v, f, base, hfocus, hwork, Nat.le_of_eq hactive.symm, rfl⟩
  · exact (depth_of_executeFrom h).trans hdepth

/-- A state with a function that calls itself without end, where two calls may be active. -/
def descending : State :=
  (State.fresh (Limits.standard.withDepth 2) .unlimited .silent).define endless

/-- The third call is refused inside the other two, and no call is left active. -/
theorem call_fence_descending : descending.depth = 0 ∧
    (∃ m, During descending [.call "f" (.int 1)] m ∧ m.Raises (.runtime (.callLimit 2)) ∧
      m.state.scope.frames.length = 3 ∧
      ∃ base, Entering descending [.call "f" (.int 1)] base m ∧ activeCalls base = 2) ∧
    ∃ t, descending.execute 20 [.call "f" (.int 1)] =
      some (.error (.runtime (.callLimit 2)), t) ∧ t.depth = 0 := by
  obtain ⟨hmoments, hraised, hend⟩ :=
    call_fence (show descending.depth = 0 from rfl) [.call "f" (.int 1)]
  have hfirst := ((During.start descending (.call "f" (.int 1)) []).step rfl).step rfl
  have hsecond := ((hfirst.step rfl).step rfl).step rfl
  have hthird := ((hsecond.step rfl).step rfl).step rfl
  have hrefused := (hraised _ 2).mp ⟨hthird, fun _ ↦ nofun, _, rfl, rfl⟩
  exact ⟨rfl, ⟨_, hthird, ((hraised _ 2).mpr hrefused).2, (hmoments _ hthird).2.2.1, hrefused.2⟩,
    _, rfl, hend 20 _ _ rfl⟩

end ExprLang.Interpreter
