import ExprLang.Proofs.Expr.Joined
import ExprLang.Proofs.Interpreter.FlatLoops
import ExprLang.Proofs.Interpreter.Lockstep
import ExprLang.Proofs.Interpreter.Sessions

/-!
Programs in a row. A program goes on where the one before it ended, unless that one failed
(`executeFrom_append`). Neither what was logged nor where sites are numbered from has an influence
on what a program does (`unlogged_of_alike`, `run_numberedFrom`). So it makes no difference whether
sources are run one by one or joined into one (`runSource_append`), or whether expressions are
executed one by one or as a block (`evaluate_block_iff`). Together this is `batches_agree`.
-/

set_option autoImplicit false

namespace ExprLang.Interpreter

/-- States that are alike with all names bound alike differ in sites and logs only. -/
theorem State.Alike.eq {l : Leeway} (hnames : l.names = fun _ ↦ false) {s t : State}
    (h : s.Alike l t) : t = { s with nextSite := t.nextSite, journal := t.journal } := by
  obtain ⟨hscope, hfunctions, hheap, -, hiterations, hdepth, hlimits, houtput, -⟩ := h
  rw [hnames] at hscope hfunctions
  have htable : s.functions = t.functions := Table.ext_get? fun name ↦ hfunctions name rfl
  cases t
  simp_all [hscope.eq]

/-! ### Logs -/

/-- The state without what was logged. -/
def State.unlogged (s : State) : State := { s with journal := .silent }

def Outcome.unlogged (o : Outcome) : Outcome := (o.1, o.2.unlogged)

/-- Nothing but what was logged may differ. -/
def Leeway.logs : Leeway where
  names _ := false
  ofName?_ne_none _ h := absurd h Bool.false_ne_true
  sites := Eq
  journals _ _ := True
  note _ _ _ := trivial

theorem unlogged_of_alike {first second : Option Outcome}
    (h : Option.Rel (Outcome.Alike .logs) first second) :
    first.map Outcome.unlogged = second.map Outcome.unlogged := by
  cases h with
  | none => rfl
  | @some o o' hend =>
    obtain ⟨hresult, hstate⟩ := hend
    have hsite : o.2.nextSite = o'.2.nextSite := hstate.nextSite
    have hunlogged : o.2.unlogged = o'.2.unlogged := by
      rw [hstate.eq rfl, ← hsite]
      rfl
    exact congrArg some (Prod.ext hresult hunlogged)

/-! ### Programs one after the other -/

/-- A program goes on behind another one, if that one gave a value. -/
theorem State.executeFrom_append (fuel : Nat) (last : Value) (s : State) (first rest : List Tree) :
    s.executeFrom fuel last (first ++ rest) =
      match s.executeFrom fuel last first with
      | some (.ok v, t) => t.executeFrom fuel v rest
      | other => other := by
  induction first generalizing s last with
  | nil => rfl
  | cons e first ih =>
    rw [List.cons_append, executeFrom, executeFrom]
    cases s.evaluate fuel e with
    | none => rfl
    | some outcome =>
      obtain ⟨r, t⟩ := outcome
      cases r with
      | error f => rfl
      | ok v => exact ih v t

/-- The outcome of running a source and then, if it gave a value, another one. The value is that of
the second source, unless there is nothing in it. -/
def State.runInTurn (fuel : Nat) (s : State) (fileA a fileB b : String) : Option Outcome :=
  match s.runSource fuel fileA a with
  | some (.ok v, t) =>
    match Parser.parse fileB b with
    | .ok [] => (t.runSource fuel fileB b).map fun o ↦ (.ok v, o.2)
    | _ => t.runSource fuel fileB b
  | other => other

/-- Assumes: the sources can be read by themselves, and in a row as `text`. -/
theorem State.runSource_append {fileA fileB file a b text : String} {xs ys : List Tree}
    (ha : Parser.parse fileA a = .ok xs) (hb : Parser.parse fileB b = .ok ys)
    (htext : Parser.parse file text = .ok (xs ++ ys)) (fuel : Nat) (s : State) :
    (s.runSource fuel file text).map Outcome.unlogged =
      (s.runInTurn fuel fileA a fileB b).map Outcome.unlogged := by
  have hread : (s.afterReading file text).Alike .logs (s.afterReading fileA a) :=
    ⟨.refl _ _, .refl _ _, rfl, rfl, rfl, rfl, rfl, rfl, trivial⟩
  have hfirst := executeFrom_alike rfl hread fuel .void xs
  rw [runInTurn, runSource_eq, runSource_eq, htext, ha]
  simp only [execute, executeFrom_append]
  generalize (s.afterReading file text).executeFrom fuel .void xs = first,
    (s.afterReading fileA a).executeFrom fuel .void xs = second at hfirst ⊢
  cases hfirst with
  | none => rfl
  | @some o o' hend =>
    obtain ⟨r, t⟩ := o
    obtain ⟨_, t'⟩ := o'
    obtain ⟨⟨⟩, hstate⟩ := hend
    cases r with
    | error f => exact unlogged_of_alike (.some ⟨rfl, hstate⟩)
    | ok v =>
      have hnext : t.Alike .logs (t'.afterReading fileB b) := { hstate with journal := trivial }
      simp only [runSource_eq, hb]
      cases ys with
      | nil => exact unlogged_of_alike (.some ⟨rfl, hnext⟩)
      | cons e rest => exact unlogged_of_alike (executeFrom_alike rfl hnext fuel v (e :: rest))

/-! ### Numbers of sites -/

/-- The state with the next definitions to be numbered from `n` on. -/
def State.numberedFrom (n : Site) (s : State) : State := { s with nextSite := n }

/-- The second state is to number from `n` on, and nothing else may differ. -/
def Leeway.numbering (n : Site) : Leeway where
  names _ := false
  ofName?_ne_none _ h := absurd h Bool.false_ne_true
  sites _ site := site = n
  journals := Eq
  note := note_eq

namespace Machine

/-- Where the next definitions are numbered from has no influence on a run. -/
theorem run_numberedFrom (n : Site) (fuel : Nat) (focus : Focus) (work : List Work) (s : State) :
    run fuel ⟨focus, work, s.numberedFrom n⟩ =
      (run fuel ⟨focus, work, s⟩).map fun o ↦ (o.1, o.2.numberedFrom n) := by
  have hstart : s.Alike (.numbering n) (s.numberedFrom n) :=
    ⟨.refl _ _, .refl _ _, rfl, rfl, rfl, rfl, rfl, rfl, rfl⟩
  have hmachine : Alike (.numbering n) ⟨focus, work, s⟩ ⟨focus, work, s.numberedFrom n⟩ :=
    ⟨rfl, List.forall₂_same.mpr fun w _ ↦ .same w, hstart⟩
  have halike := run_alike fuel hmachine
  generalize run fuel ⟨focus, work, s⟩ = first, run fuel ⟨focus, work, s.numberedFrom n⟩ = second
    at halike ⊢
  cases halike with
  | none => rfl
  | @some o o' hend =>
    obtain ⟨hresult, hstate⟩ := hend
    have hsite : o'.2.nextSite = n := hstate.nextSite
    have hjournal : o.2.journal = o'.2.journal := hstate.journal
    have hnumbered : o'.2 = o.2.numberedFrom n := by
      rw [hstate.eq rfl, hsite, ← hjournal]
      rfl
    exact congrArg some (Prod.ext hresult.symm hnumbered)

/-- A run numbers no sites. -/
theorem nextSite_of_run {m : Machine} {fuel : Nat} {r : Except Fault Value} {t : State}
    (h : m.run fuel = some (r, t)) : t.nextSite = m.state.nextSite := by
  have hnumbered := run_numberedFrom m.state.nextSite fuel m.focus m.work m.state
  change m.run fuel = (m.run fuel).map _ at hnumbered
  rw [h] at hnumbered
  exact congrArg (fun o : Outcome ↦ o.2.nextSite) (Option.some.inj hnumbered)

end Machine

/-! ### Programs and blocks -/

namespace Machine

/-- The run ends with the outcome. -/
def Ends (m : Machine) (o : Outcome) : Prop := ∃ fuel, m.run fuel = some o

theorem ends_step {m m' : Machine} (h : m.step = .inl m') (o : Outcome) :
    m.Ends o ↔ m'.Ends o := by
  constructor
  · rintro ⟨_ | fuel, hrun⟩
    · contradiction
    · rw [run, h] at hrun
      exact ⟨fuel, hrun⟩
  · rintro ⟨fuel, hrun⟩
    refine ⟨fuel + 1, ?_⟩
    rw [run, h]
    exact hrun

theorem ends_result (r : Except Fault Value) (s : State) (o : Outcome) :
    Ends ⟨ofResult r, [], s⟩ o ↔ o = (r, s) := by
  have hstep : step ⟨ofResult r, [], s⟩ = .inr (r, s) := by cases r <;> rfl
  constructor
  · rintro ⟨_ | fuel, hrun⟩
    · contradiction
    · rw [run, hstep] at hrun
      exact (Option.some.inj hrun).symm
  · rintro rfl
    refine ⟨1, ?_⟩
    rw [run, hstep]

/-- A run with work underneath is a run without it, and then the rest. -/
theorem ends_above_iff {m : Machine} {rest : List Work} {o : Outcome} :
    (m.above rest).Ends o ↔ ∃ r t, m.Ends (r, t) ∧ Ends ⟨ofResult r, rest, t⟩ o := by
  constructor
  · rintro ⟨fuel, hrun⟩
    induction fuel generalizing m with
    | zero => contradiction
    | succ fuel ih =>
      cases hstep : m.step with
      | inl m' =>
        rw [run, step_above hstep] at hrun
        obtain ⟨r, t, hfirst, hrest⟩ := ih hrun
        exact ⟨r, t, (ends_step hstep _).mpr hfirst, hrest⟩
      | inr outcome =>
        obtain ⟨r, t⟩ := outcome
        obtain rfl := work_of_step_inr hstep
        exact ⟨r, t, (ends_result r t _).mpr rfl, fuel + 1, hrun⟩
  · rintro ⟨r, t, ⟨fuel, hfirst⟩, k, hrest⟩
    obtain ⟨n, hn⟩ := run_above hfirst rest
    exact ⟨n + k, (hn k).trans hrest⟩

theorem ends_numberedFrom (n : Site) {focus : Focus} {work : List Work} {s t : State}
    {r : Except Fault Value} :
    Ends ⟨focus, work, s.numberedFrom n⟩ (r, t) ↔
      ∃ t', Ends ⟨focus, work, s⟩ (r, t') ∧ t = t'.numberedFrom n := by
  simp only [Ends, run_numberedFrom, Option.map_eq_some_iff, Prod.exists, Prod.mk.injEq]
  constructor
  · rintro ⟨fuel, _, t', hrun, rfl, rfl⟩
    exact ⟨t', ⟨fuel, hrun⟩, rfl⟩
  · rintro ⟨t', ⟨fuel, hrun⟩, rfl⟩
    exact ⟨fuel, r, t', hrun, rfl, rfl⟩

end Machine

/-- The execution of a program ends with the outcome; `last` is the value of an empty one. -/
def State.Executes (s : State) (last : Value) (program : List Tree) (o : Outcome) : Prop :=
  ∃ fuel, s.executeFrom fuel last program = some o

/-- A program is executed by evaluating its first expression, and then the others. -/
theorem executes_cons_iff {s : State} {last : Value} {e : Tree} {rest : List Tree} {o : Outcome} :
    s.Executes last (e :: rest) o ↔ ∃ r t, (s.starting e).Ends (r, t) ∧
      match r with
      | .error f => o = (.error f, t)
      | .ok v => t.Executes v rest o := by
  constructor
  · rintro ⟨fuel, hrun⟩
    rw [State.executeFrom] at hrun
    cases hfirst : s.evaluate fuel e with
    | none => simp [hfirst] at hrun
    | some first =>
      obtain ⟨r, t⟩ := first
      rw [hfirst] at hrun
      refine ⟨r, t, ⟨fuel, hfirst⟩, ?_⟩
      cases r with
      | error f => exact (Option.some.inj hrun).symm
      | ok v => exact ⟨fuel, hrun⟩
  · rintro ⟨r, t, ⟨fuel, hfirst⟩, hnext⟩
    change s.evaluate fuel e = some (r, t) at hfirst
    cases r with
    | error f =>
      refine ⟨fuel, ?_⟩
      rw [State.executeFrom, hfirst, hnext]
    | ok v =>
      obtain ⟨more, hrest⟩ := hnext
      refine ⟨max fuel more, ?_⟩
      rw [State.executeFrom, State.evaluate_mono hfirst (Nat.le_max_left _ _)]
      exact State.executeFrom_mono hrest (Nat.le_max_right _ _)

/-- A sequence is worked off by evaluating its first expression, and then the others. -/
theorem ends_sequence_cons_iff {s : State} {last : Value} {first : Code} {rest : List Code}
    {o : Outcome} :
    Machine.Ends ⟨.value last, [.sequence (first :: rest)], s⟩ o ↔
      ∃ r t, (Machine.start first s).Ends (r, t) ∧
        match r with
        | .error f => o = (.error f, t)
        | .ok v => Machine.Ends ⟨.value v, [.sequence rest], t⟩ o := by
  rw [Machine.ends_step rfl]
  change ((Machine.start first s).above [.sequence rest]).Ends o ↔ _
  rw [Machine.ends_above_iff]
  refine exists₂_congr fun r t ↦ and_congr_right fun _ ↦ ?_
  cases r with
  | error f =>
    rw [Machine.ends_step rfl]
    exact Machine.ends_result (.error f) t o
  | ok v => rfl

/-- An expression whose definitions have got their sites is evaluated alike, wherever the next ones
are numbered from. -/
theorem ends_start_iff (n : Site) {s t : State} {e : Tree} {r : Except Fault Value} :
    (Machine.start (e.marked s.nextSite).1 (s.numberedFrom n)).Ends (r, t) ↔
      ∃ u, (s.starting e).Ends (r, u) ∧ u.nextSite = (e.marked s.nextSite).2 ∧
        t = u.numberedFrom n := by
  have hsame : (Machine.start (e.marked s.nextSite).1 (s.numberedFrom n)).Ends (r, t) ↔
      ∃ u, (s.starting e).Ends (r, u) ∧ t = u.numberedFrom n :=
    Machine.ends_numberedFrom n (s := s.numberedFrom (e.marked s.nextSite).2)
  refine hsame.trans (exists_congr fun u ↦ and_congr_right ?_)
  rintro ⟨fuel, hrun⟩
  have hsite : u.nextSite = (e.marked s.nextSite).2 := Machine.nextSite_of_run hrun
  exact (and_iff_right hsite).symm

/-- Expressions in sequence are executed one by one. -/
theorem ends_sequence_iff (n : Site) (program : List Tree) (last : Value) (s : State)
    (r : Except Fault Value) (t : State) :
    Machine.Ends ⟨.value last, [.sequence (Expr.markedList s.nextSite program).1],
        s.numberedFrom n⟩ (r, t) ↔
      ∃ t', s.Executes last program (r, t') ∧ t = t'.numberedFrom n := by
  induction program generalizing s last with
  | nil =>
    have hend := Machine.ends_result (.ok last) (s.numberedFrom n) (r, t)
    rw [Machine.ends_step rfl]
    constructor
    · intro h
      obtain ⟨rfl, rfl⟩ := Prod.mk.inj (hend.mp h)
      exact ⟨s, ⟨0, rfl⟩, rfl⟩
    · rintro ⟨t', ⟨fuel, hrun⟩, rfl⟩
      cases hrun
      exact hend.mpr rfl
  | cons e rest ih =>
    change Machine.Ends ⟨.value last, [.sequence ((e.marked s.nextSite).1 ::
      (Expr.markedList (e.marked s.nextSite).2 rest).1)], s.numberedFrom n⟩ (r, t) ↔ _
    rw [ends_sequence_cons_iff]
    constructor
    · rintro ⟨r', t', hbegin, hnext⟩
      obtain ⟨u, hfirst, hsite, rfl⟩ := (ends_start_iff n).mp hbegin
      cases r' with
      | error f =>
        obtain ⟨rfl, rfl⟩ := Prod.mk.inj hnext
        exact ⟨u, executes_cons_iff.mpr ⟨_, u, hfirst, rfl⟩, rfl⟩
      | ok v =>
        rw [← hsite] at hnext
        obtain ⟨t', hrest, rfl⟩ := (ih v u).mp hnext
        exact ⟨t', executes_cons_iff.mpr ⟨_, u, hfirst, hrest⟩, rfl⟩
    · rintro ⟨t', hexecutes, rfl⟩
      obtain ⟨r', u, ⟨fuel, hfirst⟩, hnext⟩ := executes_cons_iff.mp hexecutes
      have hsite : u.nextSite = (e.marked s.nextSite).2 := Machine.nextSite_of_run hfirst
      refine ⟨r', u.numberedFrom n, (ends_start_iff n).mpr ⟨u, ⟨fuel, hfirst⟩, hsite, rfl⟩, ?_⟩
      cases r' with
      | error f =>
        obtain ⟨rfl, rfl⟩ := Prod.mk.inj hnext
        rfl
      | ok v =>
        rw [← hsite]
        exact (ih v u).mpr ⟨t', hnext, rfl⟩

/-- A block is evaluated like the program of its expressions, except that all their sites are
numbered before the first of them is evaluated. -/
theorem evaluate_block_iff {s t : State} {program : List Tree} {r : Except Fault Value} :
    (∃ fuel, s.evaluate fuel (.block program) = some (r, t)) ↔
      ∃ t', s.Executes .void program (r, t') ∧
        t = t'.numberedFrom (Expr.markedList s.nextSite program).2 := by
  rw [← ends_sequence_iff]
  have hstep : (s.starting (.block program)).step =
      Machine.step ⟨.value .void, [.sequence (Expr.markedList s.nextSite program).1],
        s.numberedFrom (Expr.markedList s.nextSite program).2⟩ := by
    change Sum.inl (Machine.begin _ _ (.block (Expr.markedList s.nextSite program).1)) = _
    generalize (Expr.markedList s.nextSite program).1 = codes
    cases codes <;> rfl
  refine exists_congr fun fuel ↦ ?_
  change (s.starting (.block program)).run fuel = _ ↔ _
  cases fuel with
  | zero => rfl
  | succ fuel => rw [Machine.run, Machine.run, hstep]

/-! ### Batches -/

/-- Two sources that are accepted, the first one with a token and without a semicolon at its end, are
read in a row, joined by a semicolon and a new line, as the one and then the other. Run so, they
have the result of the first one, if it fails or if there is nothing in the second one, and else
that of the second one run after it. Either way they leave the same state apart from what was
logged: the same bindings, functions, arrays and output. A block ends as the program of its
expressions does, in the same state apart from where the next definitions are numbered from. A
program that fails does so whatever comes behind it. -/
theorem batches_agree (s : State) :
    (∀ fileA fileB file a b tokens t xs ys, Parser.parse fileA a = .ok xs →
      Parser.parse fileB b = .ok ys → Token.scan fileA a = .ok tokens →
      tokens.dropLast.getLast? = some t → t.kind ≠ .semicolon →
      Parser.parse file (a ++ ";\n" ++ b) = .ok (xs ++ ys) ∧
      ∀ fuel, (s.runSource fuel file (a ++ ";\n" ++ b)).map Outcome.unlogged =
        (s.runInTurn fuel fileA a fileB b).map Outcome.unlogged) ∧
    (∀ program r t, (∃ fuel, s.evaluate fuel (.block program) = some (r, t)) ↔
      ∃ fuel t', s.execute fuel program = some (r, t') ∧
        t = { t' with nextSite := ((Expr.block program).marked s.nextSite).2 }) ∧
    ∀ fuel program f t, s.execute fuel program = some (.error f, t) →
      ∀ rest, s.execute fuel (program ++ rest) = some (.error f, t) := by
  refine ⟨?_, ?_, ?_⟩
  · intro fileA fileB file a b tokens t xs ys ha hb hscan hlast ht
    have hparse := Parser.parse_append_semicolon ha hb hscan hlast ht file
    exact ⟨hparse, fun fuel ↦ State.runSource_append ha hb hparse fuel s⟩
  · intro program r t
    rw [evaluate_block_iff, exists_comm]
    exact exists_congr fun t' ↦ exists_and_right.symm
  · intro fuel program f t h rest
    rw [State.execute] at h ⊢
    rw [State.executeFrom_append, h]

/-- An interpreter that has evaluated nothing and logs nothing. -/
def unused : State := .fresh .standard .unlimited .silent

/-- A source that ends in an `if` without `else`, in a function that the second source calls. -/
theorem batches_agree_called :
    (∃ xs ys t, Parser.parse "a" "x = 2; func f(n) if (n == 3) n * x" = .ok xs ∧
      Parser.parse "b" "f(3)" = .ok ys ∧
      Parser.parse "c" "x = 2; func f(n) if (n == 3) n * x;\nf(3)" = .ok (xs ++ ys) ∧
      (unused.runSource 30 "c" "x = 2; func f(n) if (n == 3) n * x;\nf(3)").map Outcome.unlogged =
        some (.ok (.int 6), t)) ∧
    ∃ f t, unused.execute 2 [.var "y"] = some (.error f, t) ∧
      unused.execute 2 [.var "y", .assign "y" (.int 1)] = some (.error f, t) := by
  obtain ⟨hjoined, -, hfault⟩ := batches_agree unused
  have hfirst : Parser.parse "a" "x = 2; func f(n) if (n == 3) n * x" =
      .ok [.assign "x" (.int 2), .define () "f" "n" (.branch (.binary .equal (.var "n") (.int 3))
        (.binary .multiply (.var "n") (.var "x")) none)] := rfl
  have hsecond : Parser.parse "b" "f(3)" = .ok [.call "f" (.int 3)] := rfl
  have hscan : ∃ tokens t, Token.scan "a" "x = 2; func f(n) if (n == 3) n * x" = .ok tokens ∧
      tokens.dropLast.getLast? = some t ∧ t.kind = .ident := ⟨_, _, rfl, rfl, rfl⟩
  have hturn : ∃ t, (unused.runInTurn 30 "a" "x = 2; func f(n) if (n == 3) n * x" "b" "f(3)").map
      Outcome.unlogged = some (.ok (.int 6), t) := ⟨_, rfl⟩
  obtain ⟨tokens, t, hscan, hlast, hkind⟩ := hscan
  obtain ⟨u, hturn⟩ := hturn
  obtain ⟨hparse, hrun⟩ :=
    hjoined "a" "b" "c" _ _ tokens t _ _ hfirst hsecond hscan hlast (by simp [hkind])
  exact ⟨⟨_, _, u, hfirst, hsecond, hparse, (hrun 30).trans hturn⟩, _, _, rfl,
    hfault 2 [.var "y"] _ _ rfl _⟩

end ExprLang.Interpreter
