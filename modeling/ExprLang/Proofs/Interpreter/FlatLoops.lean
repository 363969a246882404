import ExprLang.Proofs.Interpreter.Termination

/-!
Flat programs: no loop is inside another one or inside the body of a function. Their loops are
fenced exactly, since neither the condition nor the body of a loop counts any check but the loop's
own. A loop goes round at most as often as the limit says (`Rounds`), and how it ends is one of four
things (`LoopOutcome`). So every flat program ends, also where functions call themselves without end
(`flat_program_ends`).
-/

set_option autoImplicit false

namespace ExprLang.Interpreter

namespace Machine

/-- From some moment on, a run from `m` is a run from `m'`. -/
def Reaches (m m' : Machine) : Prop := ∃ n, ∀ k, m.run (n + k) = m'.run k

theorem Reaches.refl (m : Machine) : m.Reaches m := ⟨0, fun k ↦ by rw [Nat.zero_add]⟩

theorem Reaches.trans {m m' m'' : Machine} (h : m.Reaches m') (h' : m'.Reaches m'') :
    m.Reaches m'' := by
  obtain ⟨n, hn⟩ := h
  obtain ⟨n', hn'⟩ := h'
  refine ⟨n + n', fun k ↦ ?_⟩
  rw [Nat.add_assoc, hn, hn']

theorem Reaches.of_step {m m' m'' : Machine} (hstep : m.step = .inl m') (h : m'.Reaches m'') :
    m.Reaches m'' := by
  have hfirst : m.Reaches m' := by
    refine ⟨1, fun k ↦ ?_⟩
    rw [Nat.add_comm, run, hstep]
  exact hfirst.trans h

theorem Reaches.halts {m m' : Machine} (h : m.Reaches m') (hend : m'.Halts) : m.Halts := by
  obtain ⟨n, hn⟩ := h
  obtain ⟨fuel, outcome, hrun⟩ := hend
  exact ⟨n + fuel, outcome, (hn fuel).trans hrun⟩

end Machine

/-- Work that waits for an evaluation gets its result. -/
theorem Evaluates.reaches {e : Code} {s t : State} {r : Except Fault Value} (h : Evaluates e s r t)
    (work : List Work) : Machine.Reaches ⟨.eval e, work, s⟩ ⟨Machine.ofResult r, work, t⟩ := by
  obtain ⟨fuel, hrun⟩ := h
  exact Machine.run_above hrun work

/-- A loop that was entered in `s` has gone round `n` times: each time its check was counted, its
condition held, and its body gave a value. Here `last` is the last of these values and `t` is the
state after it. -/
inductive Rounds (condition body : Code) (s : State) : (n : Nat) → (last : Value) → State → Prop
  | none : Rounds condition body s 0 .void (s.enterLoop condition)
  | round {n : Nat} {last v : Value} {t checked held t' : State}
      (h : Rounds condition body s n last t) (hcheck : t.countIteration = (.ok (), checked))
      (hcondition : Evaluates condition checked (.ok (.bit true)) held)
      (hbody : Evaluates body held (.ok v) t') : Rounds condition body s (n + 1) v t'

/-- How a loop that was entered in `s` can end if it may check its condition `limit` times. -/
inductive LoopOutcome (condition body : Code) (limit : Nat) (s : State) :
    Except Fault Value → State → Prop
  /-- The condition did not hold at the last of at most `limit` checks. -/
  | exits {n : Nat} {last : Value} {t checked t' : State} (h : Rounds condition body s n last t)
      (hroom : n + 1 ≤ limit) (hcheck : t.countIteration = (.ok (), checked))
      (hcondition : Evaluates condition checked (.ok (.bit false)) t') :
      LoopOutcome condition body limit s (.ok last) t'
  /-- The condition failed, or its value was not a truth value. -/
  | conditionFails {n : Nat} {last : Value} {t checked t' : State} {r : Except Fault Value}
      {f : Fault} (h : Rounds condition body s n last t) (hroom : n + 1 ≤ limit)
      (hcheck : t.countIteration = (.ok (), checked))
      (hcondition : Evaluates condition checked r t')
      (hf : r.bind (·.asBit "while condition") = .error f) :
      LoopOutcome condition body limit s (.error f) t'
  /-- The condition held and the body failed. -/
  | bodyFails {n : Nat} {last : Value} {t checked held t' : State} {f : Fault}
      (h : Rounds condition body s n last t) (hroom : n + 1 ≤ limit)
      (hcheck : t.countIteration = (.ok (), checked))
      (hcondition : Evaluates condition checked (.ok (.bit true)) held)
      (hbody : Evaluates body held (.error f) t') :
      LoopOutcome condition body limit s (.error f) t'
  /-- The loop went round `limit` times and may not check its condition again. -/
  | refused {last : Value} {t t' : State} (h : Rounds condition body s limit last t)
      (hcheck : t.countIteration = (.error (.runtime (.loopLimit limit)), t')) :
      LoopOutcome condition body limit s (.error (.runtime (.loopLimit limit))) t'

/-! ### One round -/

theorem eq_ok_of_asBit {r : Except Fault Value} {operation : String} {b : Bool}
    (h : r.bind (·.asBit operation) = .ok b) : r = .ok (.bit b) := by
  cases r with
  | error f => contradiction
  | ok v =>
    cases v with
    | bit b' =>
      obtain rfl : b' = b := Except.ok.inj h
      rfl
    | _ => contradiction

/-- A check that is counted leaves room for itself. -/
theorem countIteration_eq_ok_iff {s : State} :
    s.countIteration = (.ok (), s.countIteration.2) ↔ s.iterations < s.limits.iterations := by
  by_cases hlimit : s.limits.iterations ≤ s.iterations
  · simp [State.countIteration, hlimit]
  · simp only [State.countIteration, if_neg hlimit]
    simpa using hlimit

theorem countIteration_of_le {s : State} (h : s.limits.iterations ≤ s.iterations) :
    s.countIteration = (.error (.runtime (.loopLimit s.limits.iterations)), s.countIteration.2) := by
  simp only [State.countIteration, if_pos h]

/-- The result of a condition ends the loop or starts its body. -/
theorem Machine.step_test (condition body : Code) (last : Value) (base : List Work)
    (r : Except Fault Value) (s : State) :
    step ⟨ofResult r, .test condition body last :: base, s⟩ = .inl
      (match r.bind (·.asBit "while condition") with
      | .ok true => ⟨.eval body, .again condition body :: base, s⟩
      | .ok false => ⟨.value last, base, s⟩
      | .error f => ⟨.fault f, base, s⟩) := by
  cases r with
  | ok v => rfl
  | error f => rfl

section Loop

variable {condition body : Code} {s : State} (hcondition : condition.isFlat false = true)
  (hbody : body.isFlat false = true) (hs : s.Keeps (Piece.Flat false))

include hcondition hbody hs

/-- The rounds of a loop are what is counted, and they stay within the limit. -/
theorem Rounds.counts {n : Nat} {last : Value} {t : State} (h : Rounds condition body s n last t) :
    t.Steady s.limits s.depth ∧ t.iterations = n ∧ n ≤ s.limits.iterations := by
  induction h with
  | none => exact ⟨⟨rfl, rfl, hs⟩, rfl, Nat.zero_le _⟩
  | @round n last v t checked held t' h hcheck hheld hv ih =>
    obtain ⟨hsteady, hcount, -⟩ := ih
    obtain rfl : t.countIteration.2 = checked := congrArg Prod.snd hcheck
    have hroom := countIteration_eq_ok_iff.mp hcheck
    have hchecked := hsteady.extends (by simp) t.extends_countIteration
    have hheld' := hheld.steady hcondition hchecked
    refine ⟨hv.steady hbody hheld', ?_, ?_⟩
    · rw [hv.iterations hbody hheld'.functions, hheld.iterations hcondition hchecked.functions,
        (Machine.beginCheck_of_lt hroom condition body last []).1, hcount]
    · rw [hsteady.limits, hcount] at hroom
      exact hroom

/-- Below the limit a loop goes round once more, or it ends. -/
theorem Rounds.next {n : Nat} {last : Value} {t : State} (h : Rounds condition body s n last t)
    (hroom : n < s.limits.iterations) :
    (∃ r t', LoopOutcome condition body s.limits.iterations s r t' ∧
      (Machine.beginCheck condition body last [] t).Reaches ⟨Machine.ofResult r, [], t'⟩) ∨
    ∃ v t', Rounds condition body s (n + 1) v t' ∧
      (Machine.beginCheck condition body last [] t).Reaches
        (Machine.beginCheck condition body v [] t') := by
  obtain ⟨hsteady, hcount, -⟩ := h.counts hcondition hbody hs
  have hless : t.iterations < t.limits.iterations := by
    rw [hcount, hsteady.limits]
    exact hroom
  have hcheck := countIteration_eq_ok_iff.mpr hless
  have hchecked := hsteady.extends (by simp) t.extends_countIteration
  obtain ⟨r, held, hheld⟩ :=
    (runs_of_not_loops _ _ hcondition).exists_evaluates hchecked.functions
  rw [(Machine.beginCheck_of_lt hless condition body last []).2]
  have htest := hheld.reaches [.test condition body last]
  have hstep := Machine.step_test condition body last [] r held
  cases hbit : r.bind (·.asBit "while condition") with
  | error f =>
    rw [hbit] at hstep
    exact .inl ⟨.error f, held, .conditionFails h hroom hcheck hheld hbit,
      htest.trans (.of_step hstep (.refl _))⟩
  | ok holds =>
    rw [hbit] at hstep
    obtain rfl : r = .ok (.bit holds) := eq_ok_of_asBit hbit
    cases holds with
    | false =>
      exact .inl ⟨.ok last, held, .exits h hroom hcheck hheld,
        htest.trans (.of_step hstep (.refl _))⟩
    | true =>
      have hheld' := hheld.steady hcondition hchecked
      obtain ⟨r', t', hr'⟩ := (runs_of_not_loops _ _ hbody).exists_evaluates hheld'.functions
      have hagain := htest.trans (.of_step hstep (hr'.reaches [.again condition body]))
      cases r' with
      | error f =>
        exact .inl ⟨.error f, t', .bodyFails h hroom hcheck hheld hr',
          hagain.trans (.of_step rfl (.refl _))⟩
      | ok v => exact .inr ⟨v, t', .round h hcheck hheld hr', hagain.trans (.of_step rfl (.refl _))⟩

/-- A loop that has gone round some times ends in one of the four ways. -/
theorem Rounds.exists_outcome {n : Nat} {last : Value} {t : State}
    (h : Rounds condition body s n last t) :
    ∃ r t', LoopOutcome condition body s.limits.iterations s r t' ∧
      (Machine.beginCheck condition body last [] t).Reaches ⟨Machine.ofResult r, [], t'⟩ := by
  -- By induction on the number of checks that are left.
  induction hk : s.limits.iterations - n generalizing n last t with
  | zero =>
    obtain ⟨hsteady, hcount, hle⟩ := h.counts hcondition hbody hs
    obtain rfl : n = s.limits.iterations := by omega
    have hfull : t.limits.iterations ≤ t.iterations :=
      Nat.le_of_eq (by rw [hcount, hsteady.limits])
    have hrefused := countIteration_of_le hfull
    have hbegin := (Machine.beginCheck_of_le hfull condition body last []).2
    rw [hsteady.limits] at hrefused hbegin
    rw [hbegin]
    exact ⟨_, _, .refused h hrefused, .refl _⟩
  | succ k ih =>
    rcases h.next hcondition hbody hs (by omega) with hend | ⟨v, t', hround, hreaches⟩
    · exact hend
    · obtain ⟨r, u, houtcome, hrest⟩ := ih hround (by omega)
      exact ⟨r, u, houtcome, hreaches.trans hrest⟩

/-- A loop without loops inside it ends in one of the four ways. -/
theorem exists_loopOutcome :
    ∃ r t, LoopOutcome condition body s.limits.iterations s r t ∧
      Evaluates (.loop condition body) s r t := by
  obtain ⟨r, t, houtcome, n, hn⟩ := Rounds.none.exists_outcome hcondition hbody hs
  refine ⟨r, t, houtcome, n + 2, ?_⟩
  change Machine.run (n + 1) (Machine.beginCheck condition body .void [] _) = _
  rw [hn 1]
  cases r <;> rfl

end Loop

/-! ### Flat programs -/

/-- Loops without loops inside them end. -/
theorem runs_loop {limits : Limits} {depth : Nat} {condition body : Code}
    (h : Expr.isFlat true (.loop condition body) = true) :
    Runs limits depth (.loop condition body) := by
  intro work s hwork hs
  have hparts := h
  simp only [Expr.isFlat, Bool.true_and, Bool.and_eq_true] at hparts
  obtain ⟨r, t, -, hloop⟩ := exists_loopOutcome hparts.1 hparts.2 hs.functions
  exact (hloop.reaches work).halts (hwork r t (hloop.steady h hs))

/-- Flat code ends. -/
theorem runs_of_isFlat (limits : Limits) (depth : Nat) {e : Code} (he : e.isFlat true = true) :
    Runs limits depth e :=
  runs_of_flat (fun _ _ hbody ↦ runs_of_not_loops limits (depth + 1) hbody)
    (fun _ _ hloop ↦ runs_loop hloop) he

/-- More steps do not change how a run ends. -/
theorem Machine.run_mono {m : Machine} {fuel more : Nat} {outcome : Outcome}
    (h : m.run fuel = some outcome) (hle : fuel ≤ more) : m.run more = some outcome := by
  induction fuel generalizing m more with
  | zero => contradiction
  | succ fuel ih =>
    obtain ⟨more, rfl⟩ : ∃ k, more = k + 1 := ⟨more - 1, by omega⟩
    rw [run] at h ⊢
    cases hstep : m.step with
    | inl m' =>
      rw [hstep] at h
      exact ih h (Nat.le_of_succ_le_succ hle)
    | inr end' =>
      rw [hstep] at h
      exact h

theorem State.evaluate_mono {fuel more : Nat} {s : State} {e : Tree} {outcome : Outcome}
    (h : s.evaluate fuel e = some outcome) (hle : fuel ≤ more) :
    s.evaluate more e = some outcome :=
  Machine.run_mono h hle

theorem State.executeFrom_mono {fuel more : Nat} {last : Value} {s : State} {program : List Tree}
    {outcome : Outcome} (h : s.executeFrom fuel last program = some outcome) (hle : fuel ≤ more) :
    s.executeFrom more last program = some outcome := by
  induction program generalizing s last with
  | nil => exact h
  | cons e rest ih =>
    rw [executeFrom] at h ⊢
    cases hfirst : s.evaluate fuel e with
    | none => simp [hfirst] at h
    | some first =>
      obtain ⟨r, t⟩ := first
      rw [hfirst] at h
      rw [evaluate_mono hfirst hle]
      cases r with
      | error f => exact h
      | ok v => exact ih h

/-- A flat program ends. -/
theorem exists_executeFrom {s : State} {program : List Tree}
    (h : s.Ready (Piece.Flat true) program) (last : Value) :
    ∃ fuel outcome, s.executeFrom fuel last program = some outcome := by
  induction program generalizing s last with
  | nil => exact ⟨0, _, rfl⟩
  | cons e rest ih =>
    have hcode := h.code e List.mem_cons_self s.nextSite
    obtain ⟨r, t, fuel, hrun⟩ := (runs_of_isFlat s.limits s.depth hcode).exists_evaluates
      (s := { s with nextSite := (e.marked s.nextSite).2 }) h.functions
    have hfirst : s.evaluate fuel e = some (r, t) := hrun
    cases r with
    | error f =>
      refine ⟨fuel, (.error f, t), ?_⟩
      rw [State.executeFrom, hfirst]
    | ok v =>
      obtain ⟨fuel', outcome, hrest⟩ := ih (h.next (closed_flat true) hfirst) v
      refine ⟨max fuel fuel', outcome, ?_⟩
      rw [State.executeFrom, State.evaluate_mono hfirst (Nat.le_max_left _ _)]
      exact State.executeFrom_mono hrest (Nat.le_max_right _ _)

theorem Machine.limits_of_step {m m' : Machine} (h : m.step = .inl m') :
    m'.state.limits = m.state.limits := by
  cases effect_step h with
  | within _ _ _ _ _ _ _ hstate _ => exact hstate.limits
  | enter | leave | turn => rfl
  | enterLoop _ _ _ hstate _ => exact hstate.limits
  | check _ _ _ _ _ hstate _ => exact hstate.limits
  | refuse _ _ _ _ _ hstate _ => exact hstate.limits

/-- The limits are the same at every moment. -/
theorem limits_of_during {s : State} {program : List Tree} {m : Machine}
    (h : During s program m) : m.state.limits = s.limits := by
  induction h with
  | start => rfl
  | step _ hstep ih => exact (Machine.limits_of_step hstep).trans ih
  | later hfirst _ ih => exact ih.trans (rebinds_of_evaluate hfirst).limits

/-- A program with no loop inside another one or inside the body of a function ends with a value or
a fault, in every state where the functions in the table have no loops either. Each time that it
enters a loop, the condition does not hold at one of at most as many checks as the limit says, and
the loop gives the last value of its body; or the condition or the body fails; or the condition has
held and the body has given a value exactly as often as the limit says, and the loop is refused
another check. -/
theorem flat_program_ends (s : State) (program : List Tree)
    (hprogram : ∀ e ∈ program, e.isFlat true = true)
    (hfunctions : ∀ name f, s.functions.get? name = some f → f.body.isFlat false = true) :
    (∃ fuel r t, s.execute fuel program = some (r, t)) ∧
    ∀ condition body base t, During s program ⟨.eval (.loop condition body), base, t⟩ →
      ∃ r t', LoopOutcome condition body s.limits.iterations t r t' ∧
        Machine.Reaches ⟨.eval (.loop condition body), base, t⟩ ⟨Machine.ofResult r, base, t'⟩ := by
  have hready : s.Ready (Piece.Flat true) program :=
    ⟨fun e he site ↦ (Expr.isFlat_marked true e site).trans (hprogram e he), hfunctions⟩
  constructor
  · obtain ⟨fuel, ⟨r, t⟩, hend⟩ := exists_executeFrom hready .void
    exact ⟨fuel, r, t, hend⟩
  · intro condition body base t hentry
    have hlimits : t.limits = s.limits := limits_of_during hentry
    obtain ⟨hfocus, -, hstate⟩ := keeps_of_during (closed_flat true) hentry hready
    have hparts : Expr.isFlat true (.loop condition body) = true := hfocus _ rfl
    simp only [Expr.isFlat, Bool.true_and, Bool.and_eq_true] at hparts
    obtain ⟨r, t', houtcome, hloop⟩ := exists_loopOutcome hparts.1 hparts.2 hstate
    rw [hlimits] at houtcome
    exact ⟨r, t', houtcome, hloop.reaches base⟩

/-- A function that does nothing but call itself. -/
def endless : Function := ⟨0, "f", "n", .call "f" (.var "n")⟩

/-- A state with that function, where loops may check their condition three times. -/
def recursing : State :=
  (State.fresh (Limits.standard.withIterations 3) .unlimited .silent).define endless

/-- Neither a loop whose condition always holds nor a function that calls itself without end keeps a
program from ending. -/
theorem flat_program_ends_recursing :
    (∃ fuel r t, recursing.execute fuel [.loop (.binary .equal (.int 1) (.int 1)) (.int 2),
        .call "f" (.int 0)] = some (r, t)) ∧
    ∃ r t', LoopOutcome (.binary .equal (.int 1) (.int 1)) (.int 2) 3 recursing r t' := by
  have hfunctions : ∀ name f, recursing.functions.get? name = some f →
      f.body.isFlat false = true := by
    intro name f hf
    rcases (State.extends_define _ endless).functions name f hf with hold | hnew
    · contradiction
    · simp only [List.mem_singleton, Piece.body.injEq] at hnew
      rw [hnew]
      rfl
  obtain ⟨hend, hloops⟩ := flat_program_ends recursing
    [.loop (.binary .equal (.int 1) (.int 1)) (.int 2), .call "f" (.int 0)] (by decide) hfunctions
  obtain ⟨r, t', houtcome, -⟩ := hloops _ _ _ _ (.start _ _ _)
  exact ⟨hend, r, t', houtcome⟩

end ExprLang.Interpreter
