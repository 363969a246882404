import ExprLang.Proofs.Interpreter.Steps

/-!
The fence around loops. All loops share one count of condition checks, and entering a loop, also
inside another one, starts it anew. What the limit bounds is therefore the number of checks that
loops have made since any of them was entered last (`loop_fence`). A loop during which no other one
is entered is checked as often as the limit says. With other loops inside it, it may go on beyond
the limit, or be stopped before it (`loop_not_fenced`).
-/

set_option autoImplicit false

namespace ExprLang.Interpreter

/-- The condition checks made since a loop was entered. -/
structure Account where
  /-- The checks of the loop itself. -/
  own : Nat
  /-- The checks of all loops since any loop was entered last. -/
  recent : Nat
  /-- How often a loop was entered, the loop itself included. -/
  entries : Nat

/-- What a step from `m` to `m'` adds to the account of a loop with `base` waiting below it. A check
has been made once the condition is being evaluated. -/
def Account.after (a : Account) (base : List Work) (m m' : Machine) : Account :=
  match m.focus, m.work, m'.focus with
  | .eval (.loop _ _), work, .eval _ =>
    ⟨if work.length = base.length then a.own + 1 else a.own, 1, a.entries + 1⟩
  | .value _, .again _ _ :: work, .eval _ =>
    ⟨if work.length = base.length then a.own + 1 else a.own, a.recent + 1, a.entries⟩
  | _, _, _ => a

/-- The moments of a run from the entry into a loop until the loop is over, with the account that
there is then. -/
inductive Inside (condition body : Code) (base : List Work) (s : State) : Machine → Account → Prop
  | entry : Inside condition body base s ⟨.eval (.loop condition body), base, s⟩ ⟨0, 0, 0⟩
  | step {m m' : Machine} {a : Account} (h : Inside condition body base s m a)
      (hstep : m.step = .inl m') (hopen : base.length < m'.work.length) :
      Inside condition body base s m' (a.after base m m')

theorem Account.after_of_not_checks {a : Account} {base : List Work} {m m' : Machine}
    (h : Machine.checks m.focus m.work = false) : a.after base m m' = a := by
  unfold after
  split
  · rename_i hfocus _
    rw [hfocus] at h
    contradiction
  · rename_i hfocus hwork _
    rw [hfocus, hwork] at h
    contradiction
  · rfl

/-! ### The work of a loop -/

/-- A loop that is not over waits right above what waited when it was entered. -/
def HoldsLoop (base work : List Work) : Prop :=
  ∃ above w, work = above ++ w :: base ∧ w.isLoop = true

/-- Until the loop is over, work is exchanged above it, or the loop waits for its other part. -/
theorem HoldsLoop.exchange (old new : List Work) {base rest : List Work}
    (h : HoldsLoop base (old ++ rest))
    (hold : old.length ≤ 1) (hnew : ∀ x ∈ old, x.isLoop = true → new = [] ∨
      ∃ y, new = [y] ∧ y.isLoop = true)
    (hopen : base.length < (new ++ rest).length) : HoldsLoop base (new ++ rest) := by
  obtain ⟨above, w, hwork, hw⟩ := h
  cases old with
  | nil =>
    rw [List.nil_append] at hwork
    exact ⟨new ++ above, w, by rw [hwork, List.append_assoc], hw⟩
  | cons x others =>
    obtain rfl : others = [] := by simpa using hold
    cases above with
    | cons y above =>
      have hrest : rest = above ++ w :: base := (List.cons.inj hwork).2
      exact ⟨new ++ above, w, by rw [hrest, List.append_assoc], hw⟩
    | nil =>
      obtain ⟨rfl, rfl⟩ := List.cons.inj hwork
      rcases hnew x List.mem_cons_self hw with rfl | ⟨y, rfl, hy⟩
      · exact absurd hopen (Nat.lt_irrefl _)
      · exact ⟨[], y, rfl, hy⟩

theorem HoldsLoop.length_ne {base work : List Work} (h : HoldsLoop base work) :
    work.length ≠ base.length := by
  obtain ⟨above, w, rfl, -⟩ := h
  simp only [List.length_append, List.length_cons]
  omega

/-- How many loops are active. -/
def activeLoops (work : List Work) : Nat := work.countP Work.isLoop

/-- Of a single active loop, the one that checks its condition is the one that holds. -/
theorem length_eq_of_activeLoops_le {base work : List Work} {w : Work} (hw : w.isLoop = true)
    (h : HoldsLoop base (w :: work)) (hactive : activeLoops (w :: work) ≤ activeLoops base + 1) :
    work.length = base.length := by
  obtain ⟨above, x, hwork, hx⟩ := h
  cases above with
  | nil =>
    obtain ⟨-, rfl⟩ := List.cons.inj hwork
    rfl
  | cons y above =>
    have hrest : work = above ++ x :: base := (List.cons.inj hwork).2
    have hmany : activeLoops base + 2 ≤ activeLoops (w :: work) := by
      simp only [activeLoops, hrest, List.countP_cons, List.countP_append, hw, hx, if_true]
      omega
    omega

/-! ### The account is what the interpreter counts -/

/-- What is true of the account of a loop until the loop is over. -/
structure Fenced (base : List Work) (limit : Nat) (m : Machine) (a : Account) : Prop where
  limit_eq : m.state.limits.iterations = limit
  recent_eq : m.state.iterations = a.recent
  recent_le : a.recent ≤ limit
  entered : 0 < a.entries
  /-- Up to the last entry of a loop, each entry allows for as many checks as the limit says. -/
  own_le : a.own + limit ≤ limit * a.entries + a.recent
  own_eq : a.entries = 1 → a.own = a.recent
  active_le : activeLoops m.work ≤ activeLoops base + a.entries
  holds : HoldsLoop base m.work

namespace Fenced

variable {base : List Work} {limit : Nat} {m m' : Machine} {a : Account}

/-- A step that leaves the account alone. -/
theorem exchange {focus focus' : Focus} (old new : List Work) {rest : List Work} {s s' : State}
    (h : Fenced base limit ⟨focus, old ++ rest, s⟩ a)
    (hafter : a.after base ⟨focus, old ++ rest, s⟩ ⟨focus', new ++ rest, s'⟩ = a)
    (hold : old.length ≤ 1)
    (hnew : ∀ x ∈ old, x.isLoop = true → new = [] ∨ ∃ y, new = [y] ∧ y.isLoop = true)
    (hactive : activeLoops new ≤ activeLoops old) (hlimits : s'.limits = s.limits)
    (hcount : s'.iterations = s.iterations) (hopen : base.length < (new ++ rest).length) :
    Fenced base limit ⟨focus', new ++ rest, s'⟩
      (a.after base ⟨focus, old ++ rest, s⟩ ⟨focus', new ++ rest, s'⟩) := by
  rw [hafter]
  have hlimit := (congrArg Limits.iterations hlimits).trans h.limit_eq
  have hloops : activeLoops (new ++ rest) ≤ activeLoops base + a.entries := by
    have hle := h.active_le
    simp only [activeLoops, List.countP_append] at hle hactive ⊢
    omega
  exact ⟨hlimit, hcount.trans h.recent_eq, h.recent_le, h.entered, h.own_le, h.own_eq, hloops,
    .exchange old new h.holds hold hnew hopen⟩

/-- Another loop is entered, which starts the count anew. -/
theorem enterLoop {condition body : Code} {rest : List Work} {s s' : State}
    (h : Fenced base limit ⟨.eval (.loop condition body), rest, s⟩ a)
    (hlimits : s'.limits = s.limits) (hcount : s'.iterations = 1) :
    Fenced base limit ⟨.eval condition, .test condition body .void :: rest, s'⟩
      ⟨a.own, 1, a.entries + 1⟩ := by
  obtain ⟨hlimit, -, hrecent, hentered, hown, -, hactive, above, w, hwork, hw⟩ := h
  have hpos : 1 ≤ limit := hlimit ▸ s.limits.iterations_pos
  have hbound : a.own + limit ≤ limit * (a.entries + 1) + 1 := by
    rw [Nat.mul_succ]
    omega
  have hloops : activeLoops (.test condition body .void :: rest) ≤
      activeLoops base + (a.entries + 1) := by
    simp only [activeLoops, List.countP_cons, Work.isLoop, if_true] at hactive ⊢
    omega
  have hholds : HoldsLoop base (.test condition body .void :: rest) :=
    ⟨.test condition body .void :: above, w, congrArg (_ :: ·) hwork, hw⟩
  exact ⟨(congrArg Limits.iterations hlimits).trans hlimit, hcount, hpos, Nat.succ_pos _, hbound,
    fun halone ↦ absurd (Nat.succ.inj halone) (Nat.ne_of_gt hentered), hloops, hholds⟩

/-- A loop checks its condition again, be it this one or another one inside it. -/
theorem check {condition body : Code} {v : Value} {rest : List Work} {s s' : State}
    (h : Fenced base limit ⟨.value v, .again condition body :: rest, s⟩ a)
    (hroom : s.iterations < s.limits.iterations) (hlimits : s'.limits = s.limits)
    (hcount : s'.iterations = s.iterations + 1)
    (hopen : base.length < (Work.test condition body v :: rest).length) :
    Fenced base limit ⟨.eval condition, .test condition body v :: rest, s'⟩
      ⟨if rest.length = base.length then a.own + 1 else a.own, a.recent + 1, a.entries⟩ := by
  have hself : a.entries = 1 → rest.length = base.length := fun halone ↦
    length_eq_of_activeLoops_le rfl h.holds (halone ▸ h.active_le)
  have hholds : HoldsLoop base (.test condition body v :: rest) :=
    .exchange [_] [_] h.holds (Nat.le_refl 1) (by simp [Work.isLoop]) hopen
  obtain ⟨hlimit, hrecent, -, hentered, hown, heq, hactive, -⟩ := h
  have hnext : a.recent + 1 ≤ limit := by
    rw [← hrecent, ← hlimit]
    exact hroom
  have hbound : (if rest.length = base.length then a.own + 1 else a.own) + limit ≤
      limit * a.entries + (a.recent + 1) := by
    split_ifs <;> omega
  refine ⟨(congrArg Limits.iterations hlimits).trans hlimit,
    hcount.trans (congrArg (· + 1) hrecent), hnext, hentered, hbound, fun halone ↦ ?_, hactive,
    hholds⟩
  change (if rest.length = base.length then a.own + 1 else a.own) = a.recent + 1
  rw [if_pos (hself halone), heq halone]

/-- What is true of the account stays true from step to step. -/
theorem step (h : Fenced base limit m a) (hstep : m.step = .inl m')
    (hopen : base.length < m'.work.length) : Fenced base limit m' (a.after base m m') := by
  cases Machine.effect_step hstep with
  | within old new rest hold hnew hchecks _ hstate hcount =>
    have hplain : activeLoops new = 0 := List.countP_eq_zero.mpr fun w hw ↦ by simp [(hnew w hw).2]
    exact exchange old new h (Account.after_of_not_checks hchecks) hold.1
      (fun x hx hloop ↦ .inl ((hold.2 x hx).2 hloop)) (by omega) hstate.limits hcount hopen
  | enter f v rest hdepth =>
    exact exchange [_] [_] h rfl (Nat.le_refl 1) (by simp [Work.isLoop]) (Nat.le_refl _) rfl rfl
      hopen
  | leave r caller rest s =>
    have hafter : a.after base ⟨Machine.ofResult r, [.leave caller] ++ rest, s⟩
        ⟨Machine.ofResult r, [] ++ rest, s.leaveCall caller⟩ = a := by cases r <;> rfl
    exact exchange [_] [] h hafter (Nat.le_refl 1) (by simp) (Nat.zero_le _) rfl rfl hopen
  | enterLoop condition body rest hstate hcount =>
    have hinner : rest.length ≠ base.length := h.holds.length_ne
    simpa only [Account.after, if_neg hinner] using h.enterLoop hstate.limits hcount
  | turn condition body last v rest s =>
    exact exchange [_] [_] h rfl (Nat.le_refl 1) (by simp [Work.isLoop]) (Nat.le_refl _) rfl rfl
      hopen
  | check condition body v rest hroom hstate hcount =>
    exact h.check hroom hstate.limits hcount hopen
  | refuse condition body v rest _ hstate hcount =>
    exact exchange [_] [] h rfl (Nat.le_refl 1) (by simp) (Nat.zero_le _) hstate.limits hcount hopen

end Fenced

/-- The account of a loop right after it was entered. -/
theorem fenced_entry {condition body : Code} {base : List Work} {s : State} {m : Machine}
    (hstep : Machine.step ⟨.eval (.loop condition body), base, s⟩ = .inl m) :
    Fenced base s.limits.iterations m
      (Account.after ⟨0, 0, 0⟩ base ⟨.eval (.loop condition body), base, s⟩ m) := by
  obtain ⟨s', hbegin, hstate, hcount⟩ := Machine.begin_loop condition body base s
  obtain rfl : ⟨.eval condition, .test condition body .void :: base, s'⟩ = m :=
    hbegin.symm.trans (Sum.inl.inj hstep)
  have hlimit : s'.limits.iterations = s.limits.iterations := by rw [hstate.limits]
  have hactive : activeLoops (.test condition body .void :: base) ≤ activeLoops base + 1 := by
    simp only [activeLoops, List.countP_cons, Work.isLoop, if_true]
    exact Nat.le_refl _
  have hbound : 1 + s.limits.iterations ≤ s.limits.iterations * 1 + 1 := by omega
  have hfenced : Fenced base s.limits.iterations
      ⟨.eval condition, .test condition body .void :: base, s'⟩ ⟨1, 1, 1⟩ :=
    ⟨hlimit, hcount, s.limits.iterations_pos, Nat.one_pos, hbound, fun _ ↦ rfl, hactive,
      [], .test condition body .void, rfl, rfl⟩
  simpa only [Account.after, if_true] using hfenced

/-- At every moment of a loop but its entry the account is what the interpreter counts. -/
theorem fenced_of_inside {condition body : Code} {base : List Work} {s : State} {m : Machine}
    {a : Account} (h : Inside condition body base s m a) :
    m = ⟨.eval (.loop condition body), base, s⟩ ∧ a = ⟨0, 0, 0⟩ ∨
      Fenced base s.limits.iterations m a := by
  induction h with
  | entry => exact .inl ⟨rfl, rfl⟩
  | step _ hstep hopen ih =>
    rcases ih with ⟨rfl, rfl⟩ | hfenced
    · exact .inr (fenced_entry hstep)
    · exact .inr (hfenced.step hstep hopen)

/-- The fence that the limit is. While a loop runs, whatever else runs inside it, its own condition
checks are at most as many as the limit allows for each loop that was entered, the loop itself
included. As long as no other loop is entered, they are at most as many as the limit says. When the
loop is to check its condition again, it is refused if and only if the checks that loops have made
since any of them was entered last are as many as the limit says. -/
theorem loop_fence {condition body : Code} {base : List Work} {s : State} {m : Machine}
    {a : Account} (h : Inside condition body base s m a) :
    a.own ≤ s.limits.iterations * a.entries ∧
    (a.entries ≤ 1 → a.own = a.recent ∧ a.own ≤ s.limits.iterations) ∧
    ∀ v, m.focus = .value v → m.work = .again condition body :: base →
      ((∃ t, m.step = .inl ⟨.fault (.runtime (.loopLimit s.limits.iterations)), base, t⟩) ↔
        a.recent = s.limits.iterations) ∧
      ((∃ t, m.step = .inl ⟨.eval condition, .test condition body v :: base, t⟩) ↔
        a.recent < s.limits.iterations) := by
  rcases fenced_of_inside h with ⟨rfl, rfl⟩ | hfenced
  · exact ⟨Nat.zero_le _, fun _ ↦ ⟨rfl, Nat.zero_le _⟩, nofun⟩
  · obtain ⟨hlimit, hrecent, hle, hentered, hown, heq, -, -⟩ := hfenced
    have halone : a.entries ≤ 1 → a.own = a.recent := fun hone ↦ heq (by omega)
    refine ⟨by omega, fun hone ↦ ⟨halone hone, by omega⟩, fun v hfocus hwork ↦ ?_⟩
    obtain ⟨focus, work, t⟩ := m
    subst hfocus hwork
    simp only at hlimit hrecent
    by_cases hroom : t.iterations < t.limits.iterations
    · have hcheck := (Machine.beginCheck_of_lt hroom condition body v base).2
      have hstep : Machine.step ⟨.value v, .again condition body :: base, t⟩ =
          .inl ⟨.eval condition, .test condition body v :: base, t.countIteration.2⟩ :=
        congrArg Sum.inl hcheck
      rw [hstep]
      exact ⟨⟨nofun, fun hfull ↦ by omega⟩, fun _ ↦ by omega, fun _ ↦ ⟨_, rfl⟩⟩
    · have hrefuse := (Machine.beginCheck_of_le (Nat.not_lt.mp hroom) condition body v base).2
      have hstep : Machine.step ⟨.value v, .again condition body :: base, t⟩ =
          .inl ⟨.fault (.runtime (.loopLimit t.limits.iterations)), base, t.countIteration.2⟩ :=
        congrArg Sum.inl hrefuse
      rw [hstep, hlimit]
      exact ⟨⟨fun _ ↦ by omega, fun _ ↦ ⟨_, rfl⟩⟩, nofun, fun hless ↦ by omega⟩

/-! ### Loops inside loops -/

/-- The moment some steps later, if the loop is not over by then. -/
def watch (base : List Work) : (steps : Nat) → Machine → Account → Option (Machine × Account)
  | 0, m, a => some (m, a)
  | steps + 1, m, a =>
    match m.step with
    | .inl m' =>
      if base.length < m'.work.length then watch base steps m' (a.after base m m') else none
    | .inr _ => none

theorem inside_watch {condition body : Code} {base : List Work} {s : State} {m m' : Machine}
    {a a' : Account} {steps : Nat} (h : Inside condition body base s m a)
    (hwatch : watch base steps m a = some (m', a')) : Inside condition body base s m' a' := by
  induction steps generalizing m a with
  | zero =>
    cases hwatch
    exact h
  | succ steps ih =>
    rw [watch] at hwatch
    cases hstep : m.step with
    | inl next =>
      simp only [hstep] at hwatch
      split_ifs at hwatch with hopen
      exact ih (h.step hstep hopen) hwatch
    | inr outcome => simp [hstep] at hwatch

/-- What is watched from the entry into a loop is inside it. -/
theorem inside_of_watch (condition body : Code) (base : List Work) (s : State) (steps : Nat)
    {m : Machine} {a : Account}
    (h : watch base steps ⟨.eval (.loop condition body), base, s⟩ ⟨0, 0, 0⟩ = some (m, a)) :
    Inside condition body base s m a :=
  inside_watch .entry h

/-- A state with a variable to count with, where loops may check their condition three times. -/
def counting : State :=
  (State.fresh (Limits.standard.withIterations 3) .unlimited .silent).bind "i" (.int 0)

def below (name : String) (n : Int64) : Code := .binary .less (.var name) (.int n)

def increment (name : String) : Code := .assign name (.binary .add (.var name) (.int 1))

/-- A loop without others inside it is refused after as many checks as the limit says. -/
theorem loop_fence_counting :
    ∃ m a, Inside (below "i" 9) (increment "i") [] counting m a ∧ a.entries = 1 ∧ a.own = 3 ∧
      ∃ t, m.step = .inl ⟨.fault (.runtime (.loopLimit 3)), [], t⟩ := by
  have hinside := inside_of_watch (below "i" 9) (increment "i") [] counting 42 rfl
  obtain ⟨-, hown, hattempt⟩ := loop_fence hinside
  have hrecent := (hown (Nat.le_refl 1)).1
  exact ⟨_, _, hinside, rfl, hrecent, (hattempt _ rfl rfl).1.mpr rfl⟩

/-- The limit is no fence around each loop by itself. A loop in whose body another one is entered
goes on after more checks than the limit allows, and one whose inner loop has used up the count is
refused after a single check of its own. -/
theorem loop_not_fenced :
    (∃ m a, Inside (below "i" 10) (.block [.loop (.binary .equal (.int 1) (.int 2)) (.int 0),
        increment "i"]) [] counting m a ∧ counting.limits.iterations < a.own) ∧
    ∃ m a, Inside (below "i" 2) (.block [.assign "j" (.int 0), .loop (below "j" 2) (increment "j"),
        increment "i"]) [] counting m a ∧ a.own < counting.limits.iterations ∧
      ∃ t, m.step = .inl ⟨.fault (.runtime (.loopLimit counting.limits.iterations)), [], t⟩ := by
  constructor
  · exact ⟨_, ⟨4, 2, 4⟩, inside_of_watch _ _ [] counting 73 rfl, by decide⟩
  · exact ⟨_, ⟨1, 3, 2⟩, inside_of_watch _ _ [] counting 56 rfl, by decide, _, rfl⟩

end ExprLang.Interpreter
