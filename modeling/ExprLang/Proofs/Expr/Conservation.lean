import ExprLang.Proofs.Expr.Normal

/-!
Reading loses no token, invents none and moves none. Parentheses, semicolons and the end mark only
group and separate; all other tokens of a source stand, in their order, in the trees that are made
of it. While a program is read, what it holds stands for exactly the tokens read so far
(`substance_advance`). So an accepted source and the text of its trees are scanned into the same
tokens but for grouping (`substance_scan_program`).
-/

set_option autoImplicit false

namespace ExprLang

open Token (Mark)

namespace Token

/-- The kinds that only group and separate. -/
def Kind.isGrouping : Kind → Bool
  | .lparen | .rparen | .semicolon | .eof => true
  | _ => false

/-- What tokens mean, without those that only group and separate. -/
def substance (tokens : List Token) : List (Kind × Option Literal) :=
  (tokens.map key).filter fun k ↦ !k.1.isGrouping

@[simp] theorem substance_nil : substance [] = [] := rfl

@[simp] theorem substance_append (first second : List Token) :
    substance (first ++ second) = substance first ++ substance second := by
  simp [substance]

theorem substance_cons (t : Token) (ts : List Token) :
    substance (t :: ts) =
      if t.kind.isGrouping then substance ts else t.key :: substance ts := by
  cases h : t.kind.isGrouping <;> simp [substance, key, h]

end Token

@[simp] theorem Operator.isGrouping_kind (op : Operator) : op.kind.isGrouping = false := by
  cases op <;> rfl

theorem Operator.kind_ne_payload (op : Operator) : op.kind ≠ .int ∧ op.kind ≠ .ident := by
  cases op <;> exact ⟨nofun, nofun⟩

namespace Expr

variable {μ : Type}

/-- The tokens that a tree stands for. -/
def substance (e : Expr μ) : List (Token.Kind × Option Token.Literal) :=
  Token.substance (e.marks.map Mark.token)

/-! ### Trees -/

@[simp] theorem substance_sign (k : Token.Kind) (ts : List Token) :
    Token.substance ((Mark.sign k).token :: ts) =
      if k.isGrouping then Token.substance ts else (k, none) :: Token.substance ts :=
  Token.substance_cons _ _

@[simp] theorem substance_name (s : String) (ts : List Token) :
    Token.substance ((Mark.name s).token :: ts) =
      (.ident, some (.ident s)) :: Token.substance ts :=
  Token.substance_cons _ _

@[simp] theorem substance_enclosed (closed : Bool) (ms : List Mark) :
    Token.substance ((enclosed closed ms).map Mark.token) =
      Token.substance (ms.map Mark.token) := by
  cases closed with
  | false => rfl
  | true => simp [enclosed, Token.Kind.isGrouping]

theorem substance_int {value : Int64} (h : 0 ≤ value.toInt) :
    (int value : Expr μ).substance = [(.int, some (.int value))] := by
  rw [substance, marks, numeral]
  cases hvalue : value.toInt with
  | ofNat n =>
    have hself : Int64.ofNat n = value := by
      rw [← Int64.ofInt_toInt value, hvalue]
      rfl
    rw [← hself]
    rfl
  | negSucc n =>
    rw [hvalue] at h
    contradiction

@[simp] theorem substance_var (name : String) :
    (var name : Expr μ).substance = [(.ident, some (.ident name))] := by
  simp [substance, marks]

@[simp] theorem substance_binary (op : Operator) (left right : Expr μ) :
    (binary op left right).substance =
      left.substance ++ (op.kind, none) :: right.substance := by
  have hopen : Token.Kind.isGrouping .lparen = true := rfl
  have hclose : Token.Kind.isGrouping .rparen = true := rfl
  simp [substance, marks, hopen, hclose]

@[simp] theorem substance_assign (name : String) (value : Expr μ) :
    (assign name value).substance =
      (.ident, some (.ident name)) :: (.assign, none) :: value.substance := by
  simp [substance, marks, Token.Kind.isGrouping]

@[simp] theorem substance_loop (condition body : Expr μ) :
    (loop condition body).substance =
      (.while, none) :: (condition.substance ++ body.substance) := by
  simp [substance, marks, Token.Kind.isGrouping]

@[simp] theorem substance_define (mark : μ) (name parameter : String) (body : Expr μ) :
    (define mark name parameter body).substance =
      (.func, none) :: (.ident, some (.ident name)) :: (.ident, some (.ident parameter)) ::
        body.substance := by
  simp [substance, marks, Token.Kind.isGrouping]

@[simp] theorem substance_call (name : String) (argument : Expr μ) :
    (call name argument).substance =
      (.ident, some (.ident name)) :: argument.substance := by
  simp [substance, marks, Token.Kind.isGrouping]

@[simp] theorem substance_access (base index : Expr μ) :
    (access base index).substance =
      base.substance ++ (.lbracket, none) :: (index.substance ++ [(.rbracket, none)]) := by
  simp [substance, marks, Token.Kind.isGrouping]

@[simp] theorem substance_assignCell (base index value : Expr μ) :
    (assignCell base index value).substance =
      base.substance ++ (.lbracket, none) :: (index.substance ++
        (.rbracket, none) :: (.assign, none) :: value.substance) := by
  simp [substance, marks, Token.Kind.isGrouping]

@[simp] theorem substance_branch_none (condition onTrue : Expr μ) :
    (branch condition onTrue none).substance =
      (.if, none) :: (condition.substance ++ onTrue.substance) := by
  simp [substance, marks, elseMarks, Token.Kind.isGrouping]

@[simp] theorem substance_branch_some (condition onTrue onFalse : Expr μ) :
    (branch condition onTrue (some onFalse)).substance =
      (.if, none) :: (condition.substance ++ onTrue.substance ++
        (.else, none) :: onFalse.substance) := by
  simp [substance, marks, elseMarks, Token.Kind.isGrouping]

/-- Semicolons between expressions leave no trace. -/
theorem substance_programMarks (items : List (Expr μ)) :
    Token.substance ((programMarks items).map Mark.token) = items.flatMap substance := by
  rw [programMarks, marksList_eq]
  induction items with
  | nil => rfl
  | cons e rest ih =>
    cases rest with
    | nil => simp [substance]
    | cons next rest =>
      rw [List.map_cons, List.map_cons, List.intercalate_cons_cons, List.map_append,
        List.map_append, Token.substance_append, Token.substance_append, ← List.map_cons, ih,
        List.flatMap_cons]
      simp [substance, Token.Kind.isGrouping]

@[simp] theorem substance_block (items : List (Expr μ)) :
    (block items).substance =
      (.lbrace, none) :: (items.flatMap substance ++ [(.rbrace, none)]) := by
  have hitems := substance_programMarks items
  rw [programMarks] at hitems
  simp [substance, marks, hitems, Token.Kind.isGrouping]

@[simp] theorem substance_array_nil :
    (array [] : Expr μ).substance = [(.lbracket, none), (.rbracket, none)] := rfl

/-- A comma stands behind every element of an array but the last one. -/
theorem substance_array_append (items : List (Expr μ)) (last : Expr μ) :
    (array (items ++ [last])).substance =
      (.lbracket, none) :: (items.flatMap (fun e ↦ e.substance ++ [(.comma, none)]) ++
        (last.substance ++ [(.rbracket, none)])) := by
  have helements : Token.substance (([Mark.sign .comma].intercalate
      ((items ++ [last]).map marks)).map Mark.token) =
        items.flatMap (fun e ↦ e.substance ++ [(.comma, none)]) ++ last.substance := by
    induction items with
    | nil => simp [substance]
    | cons e rest ih =>
      obtain ⟨next, others, hothers⟩ : ∃ next others, rest ++ [last] = next :: others :=
        List.exists_cons_of_ne_nil (by simp)
      rw [List.cons_append, List.map_cons, hothers, List.map_cons, List.intercalate_cons_cons,
        ← List.map_cons, ← hothers, List.map_append, List.map_append, Token.substance_append,
        Token.substance_append, ih, List.flatMap_cons]
      simp [substance, Token.Kind.isGrouping]
  rw [substance, marks, marksList_eq, List.map_cons, List.map_append, substance_sign,
    Token.substance_append, helements]
  simp [Token.Kind.isGrouping]

end Expr

/-! ### Programs being read -/

namespace Parser

def Context.substance : Context → List (Token.Kind × Option Token.Literal)
  | operator op left => left.substance ++ [(op.kind, none)]
  | assign name => [(.ident, some (.ident name)), (.assign, none)]
  | assignCell base index =>
    base.substance ++ (.lbracket, none) :: (index.substance ++ [(.rbracket, none), (.assign, none)])
  | group => []
  | subscript base => base.substance ++ [(.lbracket, none)]
  | argument name => [(.ident, some (.ident name))]
  | elements done =>
    (.lbracket, none) :: done.reverse.flatMap fun e ↦ e.substance ++ [(.comma, none)]
  | block done => (.lbrace, none) :: done.reverse.flatMap Expr.substance
  | ifCondition => [(.if, none)]
  | ifThen condition => (.if, none) :: condition.substance
  | ifElse condition onTrue =>
    (.if, none) :: (condition.substance ++ onTrue.substance ++ [(.else, none)])
  | whileCondition => [(.while, none)]
  | whileBody condition => (.while, none) :: condition.substance
  | functionBody name parameter =>
    [(.func, none), (.ident, some (.ident name)), (.ident, some (.ident parameter))]

def Header.substance : Header → List (Token.Kind × Option Token.Literal)
  | ifOpen => [(.if, none)]
  | whileOpen => [(.while, none)]
  | functionName => [(.func, none)]
  | functionOpen name | functionParameter name => [(.func, none), (.ident, name.map .ident)]
  | functionClose name parameter =>
    [(.func, none), (.ident, name.map .ident), (.ident, parameter.map .ident)]

def Focus.substance : Focus → List (Token.Kind × Option Token.Literal)
  | operand | element | item => []
  | header h => h.substance
  | value e _ => e.substance

/-- The tokens that the contexts of a stack stand for; the outermost context was read first. -/
def stackSubstance : List Context → List (Token.Kind × Option Token.Literal)
  | [] => []
  | context :: rest => stackSubstance rest ++ context.substance

def State.substance (s : State) : List (Token.Kind × Option Token.Literal) :=
  stackSubstance s.stack ++ s.focus.substance

def Step.substance : Step → List (Token.Kind × Option Token.Literal)
  | shift s => s.substance
  | done e => e.substance

/-- The tokens that a program being read stands for. -/
def Progress.substance (p : Progress) : List (Token.Kind × Option Token.Literal) :=
  p.done.reverse.flatMap Expr.substance ++ p.current.elim [] State.substance

theorem plug_substance {context : Context} {e whole : Tree} (h : context.plug? e = some whole) :
    whole.substance = context.substance ++ e.substance := by
  cases context with
  | operator | assign | assignCell | ifThen | ifElse | whileBody | functionBody =>
    cases h
    simp [Context.substance]
  | group | subscript | argument | elements | block | ifCondition | whileCondition =>
    contradiction

/-- Closing contexts moves no token. -/
theorem plugs_substance {stack rest : List Context} {e whole : Tree}
    (h : Plugs stack e rest whole) :
    stackSubstance rest ++ whole.substance = stackSubstance stack ++ e.substance := by
  induction h with
  | refl => rfl
  | plug hplug _ ih => rw [ih, plug_substance hplug, stackSubstance, List.append_assoc]

/-- A sound token that is no number and no name stands for its kind, unless it only groups. -/
theorem substance_of_kind {t : Token} (ht : t.Sound) {k : Token.Kind} (hkind : t.kind = k)
    (hint : k ≠ .int := by decide) (hident : k ≠ .ident := by decide) :
    Token.substance [t] = if k.isGrouping then [] else [(k, none)] := by
  subst hkind
  rw [Token.substance_cons, Token.key, ht.bare hint hident]
  rfl

theorem substance_of_ident? {t : Token} {name : String} (h : t.ident? = some name) :
    Token.substance [t] = [(.ident, some (.ident name))] := by
  obtain ⟨hkind, hliteral⟩ := Token.literal_of_ident? h
  rw [Token.substance_cons, Token.key, hkind, hliteral]
  rfl

theorem substance_of_int? {t : Token} {n : Int64} (h : t.int? = some n) :
    Token.substance [t] = [(.int, some (.int n))] := by
  obtain ⟨hkind, hliteral⟩ := Token.literal_of_int? h
  rw [Token.substance_cons, Token.key, hkind, hliteral]
  rfl

theorem opens_substance {t : Token} {stack : List Context} {s : State} (h : Opens t stack s)
    (ht : t.Sound) : s.substance = stackSubstance stack ++ Token.substance [t] := by
  cases h with
  | array hkind | function hkind | loop hkind | branch hkind | block hkind | group hkind =>
    rw [substance_of_kind ht hkind]
    simp [State.substance, stackSubstance, Context.substance, Focus.substance, Header.substance,
      Token.Kind.isGrouping]
  | int _ hn =>
    rw [substance_of_int? hn]
    simp [State.substance, Focus.substance, Expr.substance_int (ht.zero_le_of_int? hn)]
  | var _ hname =>
    rw [substance_of_ident? hname]
    simp [State.substance, Focus.substance]

theorem passes_substance {t : Token} {stack : List Context} {header : Header} {s : State}
    (h : Passes t stack header s) (ht : t.Sound) :
    s.substance = stackSubstance stack ++ header.substance ++ Token.substance [t] := by
  cases h with
  | ifOpen hkind | whileOpen hkind | functionOpen hkind | functionClose hkind =>
    rw [substance_of_kind ht hkind]
    simp [State.substance, stackSubstance, Context.substance, Focus.substance, Header.substance,
      Token.Kind.isGrouping]
  | functionName hkind | functionParameter hkind =>
    obtain ⟨name, hname⟩ := ht.exists_ident? hkind
    rw [substance_of_ident? hname, hname]
    simp [State.substance, Focus.substance, Header.substance]

/-- Wherever a token is taken, it is put behind what was read before. -/
theorem takes_substance {t : Token} {stack : List Context} {e : Tree} {s : State}
    (h : Takes t stack e (.shift s)) (ht : t.Sound) :
    s.substance = stackSubstance stack ++ e.substance ++ Token.substance [t] := by
  cases h with
  | index hkind | argument hkind | assign hkind | assignCell hkind | orElse hkind | separate hkind
  | endBlock hkind | comma hkind | endGroup hkind | endIndex hkind | endArgument hkind
  | endIf hkind | endWhile hkind =>
    rw [substance_of_kind ht hkind]
    simp [State.substance, stackSubstance, Context.substance, Focus.substance,
      Token.Kind.isGrouping]
  | endArray hkind =>
    rw [substance_of_kind ht hkind]
    simp [State.substance, stackSubstance, Context.substance, Focus.substance,
      Token.Kind.isGrouping, Expr.substance_array_append]
  | @operator op hop =>
    obtain ⟨-, hkind⟩ := Operator.of_ofKind? hop
    rw [substance_of_kind ht hkind.symm op.kind_ne_payload.1 op.kind_ne_payload.2]
    simp [State.substance, stackSubstance, Context.substance, Focus.substance]
  | juxtapose hopens =>
    rw [opens_substance hopens ht]
    simp [stackSubstance, Context.substance]

/-- A token ends an expression only where no context is left. -/
theorem eq_of_takes_done {t : Token} {stack : List Context} {e whole : Tree}
    (h : Takes t stack e (.done whole)) : stack = [] ∧ e = whole := by
  cases h
  exact ⟨rfl, rfl⟩

theorem moves_substance {t : Token} {s s' : State} (h : Moves t s (.shift s')) (ht : t.Sound)
    (hs : s.Normal) : s'.substance = s.substance ++ Token.substance [t] := by
  cases h with
  | opens focus hopens hfocus =>
    rw [opens_substance hopens ht]
    rcases hfocus with rfl | rfl | rfl <;> simp [State.substance, Focus.substance]
  | emptyArray hkind done rest =>
    obtain ⟨others, hstack⟩ := hs.element rfl
    obtain ⟨hdone, -⟩ := List.cons.inj hstack
    rw [Context.elements.inj hdone, substance_of_kind ht hkind]
    simp [State.substance, stackSubstance, Context.substance, Focus.substance,
      Token.Kind.isGrouping]
  | endBlock hkind done rest =>
    rw [substance_of_kind ht hkind]
    simp [State.substance, stackSubstance, Context.substance, Focus.substance,
      Token.Kind.isGrouping]
  | passes hpasses =>
    rw [passes_substance hpasses ht]
    rfl
  | takes indexable hplugs htakes =>
    rw [takes_substance htakes ht, plugs_substance hplugs]
    rfl

theorem moves_done_substance {t : Token} {s : State} {e : Tree} (h : Moves t s (.done e)) :
    e.substance = s.substance := by
  cases h with
  | takes indexable hplugs htakes =>
    obtain ⟨rfl, rfl⟩ := eq_of_takes_done htakes
    exact plugs_substance hplugs

/-- A sound token is put behind all that a program being read stands for. -/
theorem substance_advance {t : Token} {p q : Progress} (h : Advances t p q) (ht : t.Sound)
    (hp : p.Normal) : q.substance = p.substance ++ Token.substance [t] := by
  cases h with
  | begins done hopens => simp [Progress.substance, opens_substance hopens ht, stackSubstance]
  | shifts done hmoves =>
    simp [Progress.substance, moves_substance hmoves ht (hp.current _ rfl)]
  | ends done hmoves hkind =>
    rw [substance_of_kind ht hkind]
    simp [Progress.substance, moves_done_substance hmoves, Token.Kind.isGrouping]
  | restarts done hmoves hopens =>
    simp [Progress.substance, moves_done_substance hmoves, opens_substance hopens ht,
      stackSubstance]

/-- What sound tokens make stands for them. -/
theorem substance_of_foldlM {ts : List Token} (hts : ∀ t ∈ ts, t.Sound) {p : Progress}
    (h : ts.foldlM Progress.feed .start = .ok p) : p.substance = Token.substance ts := by
  have hrun := foldlM_feed_invariant
    (P := fun before p ↦ (∀ t ∈ before, t.Sound) →
      p.Normal ∧ p.substance = Token.substance before)
    (fun before t p q hadvance hp hsound ↦ by
      rw [List.forall_mem_append] at hsound
      have ht := hsound.2 t List.mem_cons_self
      obtain ⟨hnormal, hsubstance⟩ := hp hsound.1
      refine ⟨.advance hadvance ht hnormal, ?_⟩
      rw [substance_advance hadvance ht hnormal, hsubstance, Token.substance_append])
    h [] fun _ ↦ ⟨⟨List.forall_mem_nil _, nofun⟩, rfl⟩
  exact (hrun hts).2

/-- The trees of a program stand for what was read of it. -/
theorem substance_of_finish {p : Progress} {t : Token} {items : List Tree}
    (h : p.finish t = .ok items) : items.flatMap Expr.substance = p.substance := by
  rcases cases_of_finish h with ⟨hcurrent, rfl⟩ |
    ⟨stack, e, indexable, whole, hcurrent, hplugs, rfl⟩
  · simp [Progress.substance, hcurrent]
  · have hwhole := plugs_substance hplugs
    simp only [stackSubstance, List.nil_append] at hwhole
    simp [Progress.substance, hcurrent, State.substance, Focus.substance, hwhole]

theorem substance_congr {ts us : List Token} (h : ts.map Token.key = us.map Token.key) :
    Token.substance ts = Token.substance us := by
  rw [Token.substance, h, Token.substance]

/-- An accepted source and the text of the trees that it is read as, under whatever names, are
scanned into the same tokens but for grouping: each of them of the same kind, with the same
payload, and in the same order. -/
theorem substance_scan_program {file source : String} {items : List Tree}
    (h : parse file source = .ok items) (other : String) :
    ∃ tokens printed, Token.scan file source = .ok tokens ∧
      Token.scan other (Expr.program items) = .ok printed ∧
      Token.substance printed = Token.substance tokens := by
  obtain ⟨ts, place, p, hscan, hts, hread, hfinish⟩ := exists_of_parse h
  have hnormal := normal_of_parse h
  have hrange : ∀ e ∈ items, Int64.minValue ∉ e.literals := fun e he ↦
    minValue_not_mem_literals (hnormal e he).nonneg
  obtain ⟨us, ending, hprinted, hkeys⟩ :=
    scan_program other (fun e he ↦ (hnormal e he).valid) hrange
  refine ⟨_, _, hscan, hprinted, ?_⟩
  have hend : ∀ place, Token.substance [.endAt place] = [] := fun _ ↦ rfl
  rw [Token.substance_append, Token.substance_append, hend, hend, List.append_nil,
    List.append_nil]
  calc Token.substance us
      = Token.substance ((Expr.programMarks items).map Mark.token) := substance_congr hkeys
    _ = items.flatMap Expr.substance := Expr.substance_programMarks items
    _ = p.substance := substance_of_finish hfinish
    _ = Token.substance ts := substance_of_foldlM hts hread

/-- Parentheses that group nothing, a number with zeros in front of it, a minus written `!`, and an
array right behind a call. -/
theorem substance_scan_program_grouped :
    ∃ items tokens printed, parse "p" "(x) = 007 ! f((1))[2, y];" = .ok items ∧
      Expr.program items = "x = (7 - f(1));\n[2, y]" ∧
      Token.scan "p" "(x) = 007 ! f((1))[2, y];" = .ok tokens ∧
      Token.scan "q" (Expr.program items) = .ok printed ∧
      Token.substance printed = Token.substance tokens ∧ tokens.length = 19 := by
  have hparse : parse "p" "(x) = 007 ! f((1))[2, y];" =
      .ok [.assign "x" (.binary .subtract (.int 7) (.call "f" (.int 1))),
        .array [.int 2, .var "y"]] := rfl
  obtain ⟨tokens, printed, htokens, hprinted, hsame⟩ := substance_scan_program hparse "q"
  have hlength : (Token.scan "p" "(x) = 007 ! f((1))[2, y];").map List.length = .ok 19 := rfl
  rw [htokens] at hlength
  exact ⟨_, tokens, printed, hparse, rfl, htokens, hprinted, hsame, Except.ok.inj hlength⟩

end Parser

end ExprLang
