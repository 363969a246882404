import ExprLang.Proofs.Expr.FirstFault
import ExprLang.Proofs.Expr.Normal
import ExprLang.Proofs.Interpreter.Pieces

/-!
What a session can come to. All code that an interpreter ever holds comes from sources that were
read, so it is valid (`keeps_of_reached`), and valid code raises no fault that is there for trees and
tokens which no source spells (`sound_of_during`). A source that is run therefore gives a value, or
a lexical or parse fault with its place, or a runtime or typing fault without one
(`runSource_faults`).
-/

set_option autoImplicit false

namespace ExprLang

/-- Raised only where a tree has a gap or a meaningless operator, where a token lacks its number or
name, or where a builtin is not in the table of builtins. -/
def Fault.isInternal : Fault → Bool
  | runtime .missingExpression | runtime (.unknownOperator _) | emptyToken .. => true
  | runtime (.undefinedFunction name) => (Builtin.ofName? name).isSome
  | _ => false

/-- A fault that the evaluation of a valid program may raise. -/
structure Fault.Regular (f : Fault) : Prop where
  kind : f.kind = .runtime ∨ f.kind = .typing
  position? : f.position? = none
  isInternal : f.isInternal = false

theorem regular_runtime {cause : RuntimeCause} (h : (Fault.runtime cause).isInternal = false) :
    (Fault.runtime cause).Regular :=
  ⟨.inl rfl, rfl, h⟩

theorem Fault.Ordinary.regular {f : Fault} (h : f.Ordinary) : f.Regular := by
  cases h with
  | typing cause => exact ⟨.inr rfl, rfl, rfl⟩
  | _ => exact regular_runtime rfl

namespace Interpreter

/-- No fault is raised, or a regular one. -/
def Focus.Regular : Focus → Prop
  | eval _ | value _ => True
  | fault f => f.Regular

theorem Machine.regular_ofResult {r : Except Fault Value} (h : FailsWith Fault.Regular r) :
    (ofResult r).Regular := by
  cases r with
  | ok v => trivial
  | error f => exact h f rfl

/-- What valid code is made of. -/
def Piece.Valid : Piece → Prop
  | .code e | .body e => e.isValid = true
  | .operator op => Operator.known.contains op = true

theorem closed_valid : Closed Piece.Valid := by
  refine ⟨fun e he ↦ ?_, fun e he ↦ he⟩
  change e.isValid = true at he
  cases e with
  | int | var | missing => exact List.forall_mem_nil _
  | block | array => simpa [Expr.pieces, Piece.Valid, Expr.isValid, Expr.isValidList_eq] using he
  | branch _ _ onFalse =>
    cases onFalse <;>
      simpa [Expr.pieces, Piece.Valid, Expr.isValid, Expr.isValidOption, and_assoc] using he
  | loop | access | assignCell =>
    simpa [Expr.pieces, Piece.Valid, Expr.isValid, and_assoc] using he
  | assign | call | define =>
    simp only [Expr.isValid, Bool.and_eq_true] at he
    simpa [Expr.pieces, Piece.Valid] using he.2
  | binary =>
    simp only [Expr.isValid, Bool.and_eq_true] at he
    simpa [Expr.pieces, Piece.Valid] using ⟨he.1.2, he.2, by simpa using he.1.1⟩

namespace Machine

theorem regular_beginCheck (condition body : Code) (last : Value) (work : List Work) (s : State) :
    (beginCheck condition body last work s).focus.Regular := by
  rcases beginCheck_cases condition body last work s with hcheck | hrefuse
  · rw [hcheck]
    trivial
  · rw [hrefuse]
    exact regular_runtime rfl

/-- A task raises regular faults, as long as no expression is missing and every operator has a
meaning. -/
theorem regular_of_issues {t : Task} {i : Instruction} (h : Issues t i) {work : List Work}
    {s : State} (hkeeps : (t.machine work s).Keeps Piece.Valid) :
    (i.perform work s).focus.Regular := by
  cases h with
  | settle ha =>
    refine regular_ofResult fun f hf ↦ ?_
    rcases ha.fault hf with hordinary | ⟨rfl, -⟩ | ⟨v, code, left, rfl, -⟩
    · exact hordinary.regular
    · have hgap : Expr.isValid (.missing : Code) = true := hkeeps.focus _ rfl
      contradiction
    · have hop : Operator.known.contains (.other code) = true :=
        hkeeps.work _ List.mem_cons_self _ List.mem_cons_self
      simp [Operator.known] at hop
  | @find name hname argument =>
    rw [Instruction.perform]
    cases s.functions.get? name with
    | some f => trivial
    | none => exact regular_runtime (congrArg Option.isSome hname)
  | enter v f =>
    rw [Instruction.perform]
    split_ifs
    · exact regular_runtime rfl
    · trivial
  | enterLoop | check => exact regular_beginCheck ..
  | push | onTrue | onFalse | leave | turn => trivial

/-- The machine holds valid code, and has raised no fault but a regular one. -/
structure Sound (m : Machine) : Prop where
  keeps : m.Keeps Piece.Valid
  focus : m.focus.Regular

theorem sound_step {m m' : Machine} (h : m.Sound) (hstep : m.step = .inl m') : m'.Sound := by
  refine ⟨keeps_step closed_valid h.keeps hstep, ?_⟩
  cases transition_of_step hstep with
  | perform t rest s => exact regular_of_issues t.issues h.keeps
  | pass => exact h.focus

/-- An outcome with a regular fault, if any, and with valid functions in the table. -/
theorem sound_of_run {m : Machine} {fuel : Nat} {r : Except Fault Value} {s : State}
    (h : m.Sound) (hrun : m.run fuel = some (r, s)) : FailsWith Fault.Regular r ∧ s.Keeps Piece.Valid := by
  have hend := run_invariant (fun _ _ hm hstep ↦ sound_step hm hstep) hrun h
  refine ⟨?_, hend.keeps.state⟩
  rintro f rfl
  exact hend.focus

end Machine

/-! ### Programs and sessions -/

theorem State.Ready.sound {s : State} {e : Tree} {rest : List Tree}
    (h : s.Ready Piece.Valid (e :: rest)) : (s.starting e).Sound :=
  ⟨h.starting, trivial⟩

/-- At every moment of the execution of a valid program, a fault that was raised is regular. -/
theorem sound_of_during {s : State} {program : List Tree} {m : Machine} (h : During s program m)
    (hready : s.Ready Piece.Valid program) : m.Sound := by
  induction h with
  | start s e rest => exact hready.sound
  | step _ hstep ih => exact Machine.sound_step (ih hready) hstep
  | later hfirst _ ih => exact ih (hready.next closed_valid hfirst)

theorem sound_of_executeFrom {fuel : Nat} {last : Value} {s t : State} {program : List Tree}
    {r : Except Fault Value} (hready : s.Ready Piece.Valid program)
    (h : s.executeFrom fuel last program = some (r, t)) : FailsWith Fault.Regular r ∧ t.Keeps Piece.Valid := by
  induction program generalizing s last with
  | nil =>
    cases h
    exact ⟨.ok last, hready.functions⟩
  | cons e rest ih =>
    rw [State.executeFrom] at h
    cases hfirst : s.evaluate fuel e with
    | none => simp [hfirst] at h
    | some first =>
      obtain ⟨r', t'⟩ := first
      rw [hfirst] at h
      cases r' with
      | error f =>
        cases h
        exact Machine.sound_of_run hready.sound hfirst
      | ok v => exact ih (hready.next closed_valid hfirst) h

/-- What was read is ready to run, in a state where all functions are valid. -/
theorem ready_of_parse {file source : String} {program : List Tree} {s : State}
    (h : Parser.parse file source = .ok program) (hs : s.Keeps Piece.Valid) :
    s.Ready Piece.Valid program := by
  refine ⟨fun e he site ↦ ?_, hs⟩
  exact (e.isValid_marked site).trans (Parser.normal_of_parse h e he).valid

/-- A source that is not accepted is rejected with a lexical or parse fault that has a place. -/
theorem class_of_parse_error {file source : String} {f : Fault}
    (h : Parser.parse file source = .error f) :
    (f.kind = .lexical ∨ f.kind = .parse) ∧ f.position?.isSome = true := by
  cases hscan : Token.scan file source with
  | error fault =>
    obtain ⟨cause, place, rfl⟩ := Token.exists_lexical_of_scan hscan
    rw [Parser.parse, hscan] at h
    cases h
    exact ⟨.inl rfl, rfl⟩
  | ok tokens =>
    obtain ⟨-, t, -, -, -, -, -, hfilled, hblames, -, -⟩ := Parser.exists_first_fault hscan h
    obtain ⟨hkind, hposition⟩ := hblames.position? hfilled
    exact ⟨.inr hkind, by rw [hposition]; rfl⟩

/-- The state in which a source that was read is executed. -/
def State.afterReading (s : State) (file source : String) : State :=
  s.record (Reading.ofSource file source).records

theorem runSource_eq (fuel : Nat) (s : State) (file source : String) :
    s.runSource fuel file source =
      match Parser.parse file source with
      | .error f => some (.error f, s.afterReading file source)
      | .ok program => (s.afterReading file source).execute fuel program := by
  rw [State.runSource, Parser.ofSource_program]
  rfl

/-- The states of a new interpreter in which any sources were run, and which was reset, in any order
and any number of times. -/
inductive Reached : State → Prop
  | fresh (limits : Limits) (output : Output) (journal : Log.Journal) :
      Reached (.fresh limits output journal)
  | ran {s t : State} {fuel : Nat} {file source : String} {r : Except Fault Value} (h : Reached s)
      (hrun : s.runSource fuel file source = some (r, t)) : Reached t
  | reset {s : State} (h : Reached s) : Reached s.reset

/-- A source that ends has one of the faults that a reader or a valid program can have, if any, and
it leaves valid functions in the table. -/
theorem faults_of_runSource {fuel : Nat} {s t : State} {file source : String}
    {r : Except Fault Value} (hs : s.Keeps Piece.Valid)
    (h : s.runSource fuel file source = some (r, t)) :
    (∀ f, r = .error f → (f.kind = .lexical ∨ f.kind = .parse) ∧ f.position?.isSome = true ∨
      (f.kind = .runtime ∨ f.kind = .typing) ∧ f.position? = none) ∧ t.Keeps Piece.Valid := by
  have hread : (s.afterReading file source).Keeps Piece.Valid := hs
  rw [runSource_eq] at h
  cases hparse : Parser.parse file source with
  | error fault =>
    rw [hparse] at h
    cases h
    refine ⟨?_, hread⟩
    rintro f ⟨⟩
    exact .inl (class_of_parse_error hparse)
  | ok program =>
    rw [hparse] at h
    obtain ⟨hregular, hend⟩ := sound_of_executeFrom (ready_of_parse hparse hread) h
    refine ⟨fun f hf ↦ ?_, hend⟩
    obtain ⟨hkind, hplace, -⟩ := hregular f hf
    exact .inr ⟨hkind, hplace⟩

/-- All functions that a session has defined are valid. -/
theorem keeps_of_reached {s : State} (h : Reached s) : s.Keeps Piece.Valid := by
  induction h with
  | fresh => exact nofun
  | ran _ hrun ih => exact (faults_of_runSource ih hrun).2
  | reset => exact nofun

/-- Assumes: a new interpreter has run any sources and was reset any number of times. A source that
it runs to an end gives a value, or a lexical or parse fault with a place, or a runtime or typing
fault without one. No token of the source lacks its number or name, and at no moment of its
execution is an expression missing or a fault raised that is internal. -/
theorem runSource_faults {s : State} (h : Reached s) (file source : String) :
    (∀ fuel f t, s.runSource fuel file source = some (.error f, t) →
      (f.kind = .lexical ∨ f.kind = .parse) ∧ f.position?.isSome = true ∨
      (f.kind = .runtime ∨ f.kind = .typing) ∧ f.position? = none) ∧
    (∀ wanted got, Parser.parse file source ≠ .error (.emptyToken wanted got)) ∧
    ∀ program m, Parser.parse file source = .ok program →
      During (s.afterReading file source) program m →
      m.focus ≠ .eval .missing ∧ ∀ f, m.focus = .fault f → f.isInternal = false := by
  have hvalid := keeps_of_reached h
  have hread : (s.afterReading file source).Keeps Piece.Valid := hvalid
  refine ⟨?_, ?_, ?_⟩
  · intro fuel f t hrun
    exact (faults_of_runSource hvalid hrun).1 f rfl
  · intro wanted got hparse
    have hclass := (class_of_parse_error hparse).1
    simp [Fault.kind] at hclass
  · intro program m hparse hduring
    obtain ⟨hkeeps, hfocus⟩ := sound_of_during hduring (ready_of_parse hparse hread)
    constructor
    · intro hmissing
      have hgap : Expr.isValid (.missing : Code) = true := hkeeps.focus _ hmissing
      contradiction
    · intro f hf
      rw [hf] at hfocus
      exact hfocus.isInternal

/-- After the definition of a function, a call of it that fails has a fault without a place, and one
that cannot be read has a fault with a place. -/
theorem runSource_faults_call :
    ∃ s, Reached s ∧
      (∃ f t, s.runSource 20 "p" "f(0)" = some (.error f, t) ∧ f.kind = .runtime ∧
        f.position? = none) ∧
      ∃ f t, s.runSource 20 "p" "f(" = some (.error f, t) ∧ f.kind = .parse ∧
        f.position?.isSome = true := by
  have hreached := Reached.ran (.fresh .standard .unlimited .silent)
    (show State.runSource 3 _ "p" "func f(n) 1 / n" = some (_, _) from rfl)
  refine ⟨_, hreached, ⟨_, _, rfl, rfl, ?_⟩, _, _, rfl, rfl, ?_⟩
  · rcases (runSource_faults hreached "p" "f(0)").1 20 _ _ rfl with ⟨hkind, -⟩ | ⟨-, hplace⟩
    · simp [Fault.kind] at hkind
    · exact hplace
  · rcases (runSource_faults hreached "p" "f(").1 20 _ _ rfl with ⟨-, hplace⟩ | ⟨hkind, -⟩
    · exact hplace
    · simp [Fault.kind] at hkind

end Interpreter

end ExprLang
