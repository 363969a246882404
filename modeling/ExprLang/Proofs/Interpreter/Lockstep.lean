import ExprLang.Proofs.Interpreter.Steps

/-!
Two runs side by side. States may differ in what no step looks at: in the bindings of names that are
never looked up, in the site of the next definition, in what was logged. A `Leeway` says in which of
these. Machines whose states are alike apart from that take the same steps (`step_alike`), so an
expression gives the same result in both after the same number of steps, and leaves states that are
alike again (`run_alike`, `executeFrom_alike`). The names of builtins are never looked up, whatever
a program does with them (`evaluate_builtins`).
-/

set_option autoImplicit false

namespace ExprLang.Interpreter

/-- In what two states may differ. -/
structure Leeway where
  /-- The names that may be bound differently. -/
  names : String → Bool
  /-- Only names that always mean a builtin may be. -/
  ofName?_ne_none : ∀ name, names name = true → Builtin.ofName? name ≠ none
  sites : Site → Site → Prop
  journals : Log.Journal → Log.Journal → Prop
  /-- Journals stay related as long as the same is noted in both. -/
  note : ∀ {j k : Log.Journal}, journals j k → ∀ (level : Log.Level) (text : Unit → String),
    journals (j.note .interpreter level text) (k.note .interpreter level text)

theorem Leeway.note_eq {j k : Log.Journal} (h : j = k) (level : Log.Level) (text : Unit → String) :
    j.note .interpreter level text = k.note .interpreter level text := by
  rw [h]

/-- A name that does not mean a builtin is bound alike. -/
theorem Leeway.names_eq_false (l : Leeway) {name : String} (h : Builtin.ofName? name = none) :
    l.names name = false := by
  rw [← Bool.not_eq_true]
  exact fun hname ↦ l.ofName?_ne_none name hname h

/-- The states agree in all that the leeway does not leave open. -/
structure State.Alike (l : Leeway) (s t : State) : Prop where
  scope : s.scope.Alike l.names t.scope
  functions : s.functions.Alike l.names t.functions
  heap : s.heap = t.heap
  nextSite : l.sites s.nextSite t.nextSite
  iterations : s.iterations = t.iterations
  depth : s.depth = t.depth
  limits : s.limits = t.limits
  output : s.output = t.output
  journal : l.journals s.journal t.journal

/-- The work is the same, or it returns to scopes that are alike. -/
inductive Work.Alike (l : Leeway) : Work → Work → Prop
  | same (w : Work) : Alike l w w
  | leave {caller other : Scope} (h : caller.Alike l.names other) :
      Alike l (.leave caller) (.leave other)

structure Machine.Alike (l : Leeway) (m m' : Machine) : Prop where
  focus : m.focus = m'.focus
  work : List.Forall₂ (Work.Alike l) m.work m'.work
  state : m.state.Alike l m'.state

/-- The results are the same, and the states are alike. -/
structure Outcome.Alike (l : Leeway) (o o' : Outcome) : Prop where
  result : o.1 = o'.1
  state : o.2.Alike l o'.2

/-! ### What is done to states -/

namespace State.Alike

variable {l : Leeway} {s t : State}

theorem note (h : s.Alike l t) (level : Log.Level) (text : Unit → String) :
    (s.note level text).Alike l (t.note level text) :=
  { h with journal := l.note h.journal level text }

theorem bind (h : s.Alike l t) (name : String) (v : Value) :
    (s.bind name v).Alike l (t.bind name v) :=
  { h with scope := h.scope.put name v }

theorem define (h : s.Alike l t) (f : Function) : (s.define f).Alike l (t.define f) :=
  { h with
    scope := h.scope.put f.name (.function f)
    functions := h.functions.insert f.name f }

theorem withHeap (h : s.Alike l t) (heap : Heap) :
    State.Alike l { s with heap := heap } { t with heap := heap } :=
  { h with heap := rfl }

theorem enterLoop (h : s.Alike l t) (condition : Code) :
    (s.enterLoop condition).Alike l (t.enterLoop condition) := by
  have hzero : State.Alike l { s with iterations := 0 } { t with iterations := 0 } :=
    { h with iterations := rfl }
  exact hzero.note _ _

theorem countIteration (h : s.Alike l t) : s.countIteration.1 = t.countIteration.1 ∧
    s.countIteration.2.Alike l t.countIteration.2 := by
  simp only [State.countIteration, h.iterations, h.limits]
  have hcount : State.Alike l { s with iterations := t.iterations + 1, limits := t.limits }
      { t with iterations := t.iterations + 1 } := { h with iterations := rfl, limits := rfl }
  split_ifs
  · exact ⟨rfl, h.note _ _⟩
  · exact ⟨rfl, hcount.note _ _⟩
  · exact ⟨rfl, hcount⟩

theorem enterCall (h : s.Alike l t) (f : Function) (v : Value) :
    (s.enterCall f v).Alike l (t.enterCall f v) := by
  simp only [State.enterCall, h.heap]
  have hnote := h.note .debug fun _ ↦
    "call " ++ f.name ++ "(" ++ f.parameter ++ " = " ++ v.text t.heap ++ ")"
  exact { hnote with
    scope := h.scope.child.put f.parameter v
    depth := congrArg (· + 1) h.depth }

theorem leaveCall (h : s.Alike l t) {caller other : Scope} (hscope : caller.Alike l.names other) :
    (s.leaveCall caller).Alike l (t.leaveCall other) :=
  { h with
    scope := hscope
    depth := congrArg (· - 1) h.depth }

theorem applyBuiltin (h : s.Alike l t) (b : Builtin) (v : Value) :
    (s.applyBuiltin b v).1 = (t.applyBuiltin b v).1 ∧
      (s.applyBuiltin b v).2.Alike l (t.applyBuiltin b v).2 := by
  cases b with
  | length =>
    change (s.applyLength v).1 = (t.applyLength v).1 ∧ _
    cases v with
    | array address => exact ⟨by simp only [State.applyLength, h.heap], h⟩
    | _ => exact ⟨rfl, h⟩
  | print =>
    change (s.applyPrint v).1 = (t.applyPrint v).1 ∧
      (s.applyPrint v).2.Alike l (t.applyPrint v).2
    simp only [State.applyPrint, h.output, h.heap]
    cases t.output.writeLine (v.text t.heap) with
    | none => exact ⟨rfl, h⟩
    | some output => exact ⟨rfl, { h with heap := rfl, output := rfl }⟩

/-- An action gives the same in both. A name that is looked up must be bound alike. -/
theorem act (h : s.Alike l t) (a : Action) (ha : ∀ name, a = .lookUp name → l.names name = false) :
    (a.act s).1 = (a.act t).1 ∧ (a.act s).2.Alike l (a.act t).2 := by
  cases a with
  | result r => exact ⟨rfl, h⟩
  | lookUp name => exact ⟨h.scope.get (ha name rfl), h⟩
  | bind name v => exact ⟨rfl, h.bind name v⟩
  | define f => exact ⟨rfl, (h.define f).note _ _⟩
  | operate op left right =>
    rw [Action.act, Action.act, h.heap]
    exact ⟨rfl, h⟩
  | builtin b argument => exact h.applyBuiltin b argument
  | allocate cells =>
    rw [Action.act, Action.act, h.heap]
    exact ⟨rfl, h.withHeap _⟩
  | read address index =>
    rw [Action.act, Action.act, h.heap]
    exact ⟨rfl, h⟩
  | write address index value =>
    simp only [Action.act, h.heap]
    cases t.heap.position address index with
    | ok cell => exact ⟨rfl, h.withHeap _⟩
    | error f => exact ⟨rfl, h⟩

end State.Alike

/-! ### Steps -/

namespace Machine

variable {l : Leeway} {s t : State} {work work' : List Work}

theorem beginCheck_alike (hwork : List.Forall₂ (Work.Alike l) work work') (hs : s.Alike l t)
    (condition body : Code) (last : Value) :
    (beginCheck condition body last work s).Alike l (beginCheck condition body last work' t) := by
  obtain ⟨hresult, hstate⟩ := hs.countIteration
  unfold beginCheck
  generalize s.countIteration = first, t.countIteration = second at hresult hstate
  obtain ⟨r, s'⟩ := first
  obtain ⟨_, t'⟩ := second
  subst hresult
  cases r with
  | ok => exact ⟨rfl, .cons (.same _) hwork, hstate⟩
  | error f => exact ⟨rfl, hwork, hstate⟩

/-- What a task leads to is done alike: a variable and a called function are looked up only under
names that do not mean a builtin. -/
theorem perform_alike {task : Task} {i : Instruction} (h : Issues task i)
    (hwork : List.Forall₂ (Work.Alike l) work work') (hs : s.Alike l t) :
    (i.perform work s).Alike l (i.perform work' t) := by
  have hsame : ∀ focus, Machine.Alike l ⟨focus, work, s⟩ ⟨focus, work', t⟩ :=
    fun _ ↦ ⟨rfl, hwork, hs⟩
  have hpush : ∀ focus w, Machine.Alike l ⟨focus, w :: work, s⟩ ⟨focus, w :: work', t⟩ :=
    fun _ w ↦ ⟨rfl, .cons (.same w) hwork, hs⟩
  cases h with
  | @settle _ a ha =>
    obtain ⟨hresult, hstate⟩ := hs.act a fun name hname ↦ by
      subst hname
      cases ha with
      | lookUp hbuiltin => exact l.names_eq_false hbuiltin
    exact ⟨congrArg ofResult hresult, hwork, hstate⟩
  | push => exact hpush _ _
  | onTrue | onFalse => exact hsame _
  | @find name hname argument =>
    simp only [Instruction.perform, hs.functions name (l.names_eq_false hname)]
    cases t.functions.get? name with
    | some f => exact hpush _ _
    | none => exact hsame _
  | enter v f =>
    simp only [Instruction.perform, hs.limits, hs.depth]
    split_ifs
    · exact hsame _
    · exact ⟨rfl, .cons (.leave hs.scope) hwork, hs.enterCall f v⟩
  | leave v caller => exact ⟨rfl, hwork, hs.leaveCall (.refl _ caller)⟩
  | enterLoop condition body =>
    exact beginCheck_alike hwork (hs.enterLoop condition) condition body .void
  | turn => exact hpush _ _
  | check v condition body => exact beginCheck_alike hwork hs condition body v

theorem step_machine_alike (task : Task) (hwork : List.Forall₂ (Work.Alike l) work work')
    (hs : s.Alike l t) :
    Sum.LiftRel (Machine.Alike l) (Outcome.Alike l) (task.machine work s).step
      (task.machine work' t).step := by
  rw [step_machine, step_machine]
  exact .inl (perform_alike task.issues hwork hs)

theorem unwind_alike {w w' : Work} (hw : Work.Alike l w w') (hs : s.Alike l t) :
    (unwind s w).Alike l (unwind t w') := by
  cases hw with
  | same w =>
    cases w with
    | leave caller => exact hs.leaveCall (.refl _ caller)
    | _ => exact hs
  | leave hscope => exact hs.leaveCall hscope

/-- Machines that are alike take steps that are alike, and end together. -/
theorem step_alike {m m' : Machine} (h : m.Alike l m') :
    Sum.LiftRel (Machine.Alike l) (Outcome.Alike l) m.step m'.step := by
  obtain ⟨focus, work, s⟩ := m
  obtain ⟨_, work', t⟩ := m'
  obtain ⟨⟨⟩, hwork, hs⟩ := h
  change List.Forall₂ (Work.Alike l) work work' at hwork
  cases focus with
  | eval e => exact step_machine_alike (.eval e) hwork hs
  | value v =>
    cases hwork with
    | nil => exact .inr ⟨rfl, hs⟩
    | @cons w _ _ _ hw hrest =>
      cases hw with
      | same => exact step_machine_alike (.give v w) hrest hs
      | leave hscope => exact .inl ⟨rfl, hrest, hs.leaveCall hscope⟩
  | fault f =>
    cases hwork with
    | nil => exact .inr ⟨rfl, hs⟩
    | cons hw hrest => exact .inl ⟨rfl, hrest, unwind_alike hw hs⟩

/-- Runs of machines that are alike end after the same number of steps, with outcomes that are
alike. -/
theorem run_alike (fuel : Nat) {m m' : Machine} (h : m.Alike l m') :
    Option.Rel (Outcome.Alike l) (m.run fuel) (m'.run fuel) := by
  induction fuel generalizing m m' with
  | zero => exact .none
  | succ fuel ih =>
    have hstep := step_alike h
    rw [run, run]
    generalize m.step = next, m'.step = next' at hstep ⊢
    cases hstep with
    | inl hnext => exact ih hnext
    | inr hend => exact .some hend

end Machine

/-! ### Evaluations -/

section Results

variable {l : Leeway} {first second : Option Outcome}

theorem eq_none_iff_of_alike (h : Option.Rel (Outcome.Alike l) first second) :
    first = none ↔ second = none := by
  cases h <;> simp

theorem exists_of_alike (h : Option.Rel (Outcome.Alike l) first second) {r : Except Fault Value}
    {s : State} (hfirst : first = some (r, s)) : ∃ t, second = some (r, t) ∧ s.Alike l t := by
  subst hfirst
  obtain ⟨hresult, hstate⟩ := h
  subst hresult
  exact ⟨_, rfl, hstate⟩

end Results

/-- Where the definitions of an expression get the same sites in both states, it is evaluated
alike. -/
theorem State.evaluate_alike {l : Leeway} (hsites : l.sites = Eq) {s t : State} (h : s.Alike l t)
    (fuel : Nat) (e : Tree) :
    Option.Rel (Outcome.Alike l) (s.evaluate fuel e) (t.evaluate fuel e) := by
  have hsite : s.nextSite = t.nextSite := hsites ▸ h.nextSite
  rw [State.evaluate, State.evaluate, hsite]
  refine Machine.run_alike fuel ⟨rfl, .nil, { h with nextSite := ?_ }⟩
  rw [hsites]
  rfl

theorem State.executeFrom_alike {l : Leeway} (hsites : l.sites = Eq) {s t : State}
    (h : s.Alike l t) (fuel : Nat) (last : Value) (program : List Tree) :
    Option.Rel (Outcome.Alike l) (s.executeFrom fuel last program)
      (t.executeFrom fuel last program) := by
  induction program generalizing s t last with
  | nil => exact .some ⟨rfl, h⟩
  | cons e rest ih =>
    have hfirst := evaluate_alike hsites h fuel e
    rw [executeFrom, executeFrom]
    generalize s.evaluate fuel e = first, t.evaluate fuel e = second at hfirst ⊢
    cases hfirst with
    | none => exact .none
    | @some o o' hend =>
      obtain ⟨r, s'⟩ := o
      obtain ⟨_, t'⟩ := o'
      obtain ⟨⟨⟩, hstate⟩ := hend
      cases r with
      | error f => exact .some ⟨rfl, hstate⟩
      | ok v => exact ih hstate v

/-- The names of the two builtins may be bound differently, and nothing else may differ. -/
def Leeway.builtins : Leeway where
  names name := name = "length" ∨ name = "print"
  ofName?_ne_none name hname := by
    obtain rfl | rfl := of_decide_eq_true hname
    · exact nofun
    · exact nofun
  sites := Eq
  journals := Eq
  note := note_eq

/-- Assumes: the states agree in all but what `length` and `print` are bound to, if to anything, in
any frame and in the table of functions. Then an expression ends in the one if and only if it ends
in the other. It has the same result and prints the same after as many steps, and it leaves states
that agree in all but these bindings again. -/
theorem evaluate_builtins {s t : State} (h : s.Alike .builtins t) (e : Tree) :
    ((∃ fuel, s.evaluate fuel e ≠ none) ↔ ∃ fuel, t.evaluate fuel e ≠ none) ∧
    ∀ fuel r s', s.evaluate fuel e = some (r, s') → ∃ t', t.evaluate fuel e = some (r, t') ∧
      s'.output = t'.output ∧ s'.Alike .builtins t' := by
  have halike := fun fuel ↦ State.evaluate_alike rfl h fuel e
  constructor
  · exact exists_congr fun fuel ↦ not_congr (eq_none_iff_of_alike (halike fuel))
  · intro fuel r s' hs
    obtain ⟨t', ht, hend⟩ := exists_of_alike (halike fuel) hs
    exact ⟨t', ht, hend.output, hend⟩

/-- Inside a call, with nothing but `x` bound. -/
def untouched : State :=
  { State.fresh .standard .unlimited .silent with
    scope := (Scope.empty.put "x" (.int 2)).child
    depth := 1 }

/-- The same with bindings of `length` and `print` in both frames and in the table of functions. -/
def meddled : State :=
  { untouched with
    scope := ((Scope.empty.put "x" (.int 2)).put "print" (.int 7)).child.put "length" .void
    functions := Table.empty.insert "length" ⟨0, "length", "p", .int 9⟩ }

/-- Binds the names of both builtins once more, and then calls both. -/
def meddler : Tree :=
  .block [.assign "length" (.var "print"),
    .define () "print" "length" (.var "length"),
    .call "print" (.call "length" (.array [.var "x"]))]

/-- Whatever was bound before, the calls are those of the builtins. -/
theorem evaluate_builtins_meddled : untouched.Alike .builtins meddled ∧
    ∃ s' t', untouched.evaluate 30 meddler = some (.ok .void, s') ∧
      meddled.evaluate 30 meddler = some (.ok .void, t') ∧
      t'.output.text = "1\n" ∧ s'.Alike .builtins t' := by
  have hframe : untouched.scope.frame.Alike Leeway.builtins.names meddled.scope.frame :=
    Table.Alike.insert_right (.refl _ _) rfl _
  have hparent : Table.Alike Leeway.builtins.names (Scope.empty.put "x" (.int 2)).frame
      ((Scope.empty.put "x" (.int 2)).put "print" (.int 7)).frame :=
    Table.Alike.insert_right (.refl _ _) rfl _
  have halike : untouched.Alike .builtins meddled :=
    { scope := .cons hframe (.cons hparent .nil)
      functions := Table.Alike.insert_right (.refl _ _) rfl _
      heap := rfl
      nextSite := rfl
      iterations := rfl
      depth := rfl
      limits := rfl
      output := rfl
      journal := rfl }
  obtain ⟨t', ht, houtput, hend⟩ := (evaluate_builtins halike meddler).2 30 _ _ rfl
  exact ⟨halike, _, t', rfl, ht, congrArg Output.text houtput.symm, hend⟩

end ExprLang.Interpreter
