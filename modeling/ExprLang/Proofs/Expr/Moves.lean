import ExprLang.Proofs.Expr.Contexts

/-!
What one token can do to a program being read. Where an operand may start it opens one (`Opens`),
inside a header it is passed (`Passes`), and behind an operand it first closes contexts that need no
token of their own (`Plugs`) and then goes to the context that takes it (`Takes`). These are all the
moves there are (`moves_of_feed`, `advances_of_feed`), so what each of them keeps is kept by the
whole reading (`foldlM_feed_invariant`).
-/

set_option autoImplicit false

namespace ExprLang.Parser

/-- The first token of an operand. -/
inductive Opens (t : Token) (stack : List Context) : State → Prop
  | array (h : t.kind = .lbracket) : Opens t stack ⟨.elements [] :: stack, .element⟩
  | function (h : t.kind = .func) : Opens t stack ⟨stack, .header .functionName⟩
  | loop (h : t.kind = .while) : Opens t stack ⟨stack, .header .whileOpen⟩
  | branch (h : t.kind = .if) : Opens t stack ⟨stack, .header .ifOpen⟩
  | block (h : t.kind = .lbrace) : Opens t stack ⟨.block [] :: stack, .item⟩
  | int (h : t.kind = .int) {n : Int64} (hn : t.int? = some n) :
      Opens t stack ⟨stack, .value (.int n) true⟩
  | var (h : t.kind = .ident) {name : String} (hname : t.ident? = some name) :
      Opens t stack ⟨stack, .value (.var name) true⟩
  | group (h : t.kind = .lparen) : Opens t stack ⟨.group :: stack, .operand⟩

/-- A token of a header, which is of the wanted kind. The last one asks for the names before it. -/
inductive Passes (t : Token) (stack : List Context) : Header → State → Prop
  | ifOpen (h : t.kind = .lparen) : Passes t stack .ifOpen ⟨.ifCondition :: stack, .operand⟩
  | whileOpen (h : t.kind = .lparen) :
      Passes t stack .whileOpen ⟨.whileCondition :: stack, .operand⟩
  | functionName (h : t.kind = .ident) :
      Passes t stack .functionName ⟨stack, .header (.functionOpen t.ident?)⟩
  | functionOpen (h : t.kind = .lparen) (name : Option String) :
      Passes t stack (.functionOpen name) ⟨stack, .header (.functionParameter name)⟩
  | functionParameter (h : t.kind = .ident) (name : Option String) :
      Passes t stack (.functionParameter name) ⟨stack, .header (.functionClose name t.ident?)⟩
  | functionClose (h : t.kind = .rparen) (name parameter : String) :
      Passes t stack (.functionClose (some name) (some parameter))
        ⟨.functionBody name parameter :: stack, .operand⟩

/-- Contexts that need no token of their own are closed, the innermost first. -/
inductive Plugs : List Context → Tree → List Context → Tree → Prop
  | refl (stack : List Context) (e : Tree) : Plugs stack e stack e
  | plug {context : Context} {rest stack : List Context} {e whole outer : Tree}
      (h : context.plug? e = some whole) (hrest : Plugs rest whole stack outer) :
      Plugs (context :: rest) e stack outer

/-- A token behind the operand `e` that extends it or is taken by the context around it. -/
inductive Takes (t : Token) : List Context → Tree → Step → Prop
  | done (e : Tree) : Takes t [] e (.done e)
  | index (h : t.kind = .lbracket) (stack : List Context) (e : Tree) :
      Takes t stack e (.shift ⟨.subscript e :: stack, .operand⟩)
  | argument (h : t.kind = .lparen) (stack : List Context) (name : String) :
      Takes t stack (.var name) (.shift ⟨.argument name :: stack, .operand⟩)
  | assign (h : t.kind = .assign) (stack : List Context) (name : String) :
      Takes t stack (.var name) (.shift ⟨.assign name :: stack, .operand⟩)
  | assignCell (h : t.kind = .assign) (stack : List Context) (base index : Tree) :
      Takes t stack (.access base index) (.shift ⟨.assignCell base index :: stack, .operand⟩)
  | operator {op : Operator} (h : Operator.ofKind? t.kind = some op) (stack : List Context)
      (e : Tree) : Takes t stack e (.shift ⟨.operator op e :: stack, .operand⟩)
  | orElse (h : t.kind = .else) (condition : Tree) (rest : List Context) (e : Tree) :
      Takes t (.ifThen condition :: rest) e (.shift ⟨.ifElse condition e :: rest, .operand⟩)
  | separate (h : t.kind = .semicolon) (done : List Tree) (rest : List Context) (e : Tree) :
      Takes t (.block done :: rest) e (.shift ⟨.block (e :: done) :: rest, .item⟩)
  | endBlock (h : t.kind = .rbrace) (done : List Tree) (rest : List Context) (e : Tree) :
      Takes t (.block done :: rest) e (.shift ⟨rest, .value (.block (e :: done).reverse) true⟩)
  | juxtapose {done : List Tree} {rest : List Context} {e : Tree} {s : State}
      (h : Opens t (.block (e :: done) :: rest) s) : Takes t (.block done :: rest) e (.shift s)
  | comma (h : t.kind = .comma) (done : List Tree) (rest : List Context) (e : Tree) :
      Takes t (.elements done :: rest) e (.shift ⟨.elements (e :: done) :: rest, .operand⟩)
  | endArray (h : t.kind = .rbracket) (done : List Tree) (rest : List Context) (e : Tree) :
      Takes t (.elements done :: rest) e (.shift ⟨rest, .value (.array (e :: done).reverse) true⟩)
  | endGroup (h : t.kind = .rparen) (rest : List Context) (e : Tree) :
      Takes t (.group :: rest) e (.shift ⟨rest, .value e true⟩)
  | endIndex (h : t.kind = .rbracket) (base : Tree) (rest : List Context) (e : Tree) :
      Takes t (.subscript base :: rest) e (.shift ⟨rest, .value (.access base e) true⟩)
  | endArgument (h : t.kind = .rparen) (name : String) (rest : List Context) (e : Tree) :
      Takes t (.argument name :: rest) e (.shift ⟨rest, .value (.call name e) false⟩)
  | endIf (h : t.kind = .rparen) (rest : List Context) (e : Tree) :
      Takes t (.ifCondition :: rest) e (.shift ⟨.ifThen e :: rest, .operand⟩)
  | endWhile (h : t.kind = .rparen) (rest : List Context) (e : Tree) :
      Takes t (.whileCondition :: rest) e (.shift ⟨.whileBody e :: rest, .operand⟩)

/-- What a token does to an expression being read. -/
inductive Moves (t : Token) : State → Step → Prop
  | opens {stack : List Context} (focus : Focus) {s : State} (h : Opens t stack s)
      (hfocus : focus = .operand ∨ focus = .element ∨ focus = .item) :
      Moves t ⟨stack, focus⟩ (.shift s)
  | emptyArray (h : t.kind = .rbracket) (done : List Tree) (rest : List Context) :
      Moves t ⟨.elements done :: rest, .element⟩ (.shift ⟨rest, .value (.array []) true⟩)
  | endBlock (h : t.kind = .rbrace) (done : List Tree) (rest : List Context) :
      Moves t ⟨.block done :: rest, .item⟩ (.shift ⟨rest, .value (.block done.reverse) true⟩)
  | passes {stack : List Context} {header : Header} {s : State} (h : Passes t stack header s) :
      Moves t ⟨stack, .header header⟩ (.shift s)
  | takes {stack rest : List Context} {e whole : Tree} {step : Step} (indexable : Bool)
      (hplugs : Plugs stack e rest whole) (htakes : Takes t rest whole step) :
      Moves t ⟨stack, .value e indexable⟩ step

/-- What a token does to a program being read. -/
inductive Advances (t : Token) : Progress → Progress → Prop
  | begins (done : List Tree) {s : State} (h : Opens t [] s) :
      Advances t ⟨done, none⟩ ⟨done, some s⟩
  | shifts (done : List Tree) {s s' : State} (h : Moves t s (.shift s')) :
      Advances t ⟨done, some s⟩ ⟨done, some s'⟩
  | ends (done : List Tree) {s : State} {e : Tree} (h : Moves t s (.done e))
      (hkind : t.kind = .semicolon) : Advances t ⟨done, some s⟩ ⟨e :: done, none⟩
  | restarts (done : List Tree) {s s' : State} {e : Tree} (h : Moves t s (.done e))
      (hopens : Opens t [] s') : Advances t ⟨done, some s⟩ ⟨e :: done, some s'⟩

theorem opens_of_operand {t : Token} {stack : List Context} {s : State}
    (h : operand stack t = .ok s) : Opens t stack s := by
  unfold operand at h
  split at h
  · cases h
    exact .array ‹_›
  · cases h
    exact .function ‹_›
  · cases h
    exact .loop ‹_›
  · cases h
    exact .branch ‹_›
  · cases h
    exact .block ‹_›
  · split at h
    · cases h
      exact .int ‹_› ‹_›
    · contradiction
  · split at h
    · cases h
      exact .var ‹_› ‹_›
    · contradiction
  · cases h
    exact .group ‹_›
  · contradiction

theorem passes_of_feed {t : Token} {stack : List Context} {header : Header} {s : State}
    (h : header.feed stack t = .ok s) : Passes t stack header s := by
  unfold Header.feed at h
  split_ifs at h with hkind
  cases header with
  | ifOpen =>
    cases h
    exact .ifOpen hkind
  | whileOpen =>
    cases h
    exact .whileOpen hkind
  | functionName =>
    cases h
    exact .functionName hkind
  | functionOpen name =>
    cases h
    exact .functionOpen hkind name
  | functionParameter name =>
    cases h
    exact .functionParameter hkind name
  | functionClose name? parameter? =>
    cases name? with
    | none => contradiction
    | some name =>
      cases parameter? with
      | none => contradiction
      | some parameter =>
        cases h
        exact .functionClose hkind name parameter

/-- Closing binary operations closes contexts. -/
theorem plugs_reduce (level : Nat) (stack : List Context) (e : Tree) :
    Plugs stack e (reduce level stack e).1 (reduce level stack e).2 := by
  fun_induction reduce level stack e with
  | case1 op left rest e hlevel ih => exact .plug rfl ih
  | case2 op left rest e hlevel => exact .refl _ _
  | case3 stack e _ => exact .refl _ _

/-- A token that does not extend the operand before it goes to the context that takes it. -/
theorem takes_of_close {t : Token} {stack : List Context} {e : Tree} {step : Step}
    (h : close t stack e = .ok step) :
    ∃ rest whole, Plugs stack e rest whole ∧ Takes t rest whole step := by
  induction stack generalizing e with
  | nil =>
    cases h
    exact ⟨_, _, .refl _ _, .done e⟩
  | cons context rest ih =>
    -- A context that needs no token is closed, and the token goes on to the rest.
    have hplug : ∀ {whole : Tree}, context.plug? e = some whole → close t rest whole = .ok step →
        ∃ outer outermost, Plugs (context :: rest) e outer outermost ∧
          Takes t outer outermost step := by
      intro whole hwhole hclose
      obtain ⟨outer, outermost, hplugs, htakes⟩ := ih hclose
      exact ⟨outer, outermost, .plug hwhole hplugs, htakes⟩
    -- Some contexts may also be indexed once they are closed.
    have hreopen : ∀ {whole : Tree}, context.plug? e = some whole →
        reopen t rest whole (close t rest whole) = .ok step →
        ∃ outer outermost, Plugs (context :: rest) e outer outermost ∧
          Takes t outer outermost step := by
      intro whole hwhole hnext
      unfold reopen at hnext
      split_ifs at hnext with hbracket
      · cases hnext
        exact ⟨rest, whole, .plug hwhole (.refl _ _), .index hbracket _ _⟩
      · exact hplug hwhole hnext
    cases context with
    | operator op left => exact hplug rfl h
    | assign name => exact hplug rfl h
    | assignCell base index => exact hplug rfl h
    | ifThen condition =>
      simp only [close] at h
      split_ifs at h with helse
      · cases h
        exact ⟨_, _, .refl _ _, .orElse helse _ _ _⟩
      · exact hreopen rfl h
    | ifElse condition onTrue => exact hreopen rfl h
    | whileBody condition => exact hreopen rfl h
    | functionBody name parameter => exact hreopen rfl h
    | block done =>
      refine ⟨_, _, .refl _ _, ?_⟩
      simp only [close] at h
      split at h
      · cases h
        exact .separate ‹_› _ _ _
      · cases h
        exact .endBlock ‹_› _ _ _
      · cases hoperand : operand (.block (e :: done) :: rest) t with
        | error fault => simp [hoperand, Except.map] at h
        | ok s =>
          simp only [hoperand, Except.map, Except.ok.injEq] at h
          subst h
          exact .juxtapose (opens_of_operand hoperand)
    | elements done =>
      refine ⟨_, _, .refl _ _, ?_⟩
      simp only [close] at h
      split at h
      · cases h
        exact .comma ‹_› _ _ _
      · cases h
        exact .endArray ‹_› _ _ _
      · contradiction
    | group =>
      simp only [close] at h
      split_ifs at h with hkind
      cases h
      exact ⟨_, _, .refl _ _, .endGroup (not_not.mp hkind) _ _⟩
    | subscript base =>
      simp only [close] at h
      split_ifs at h with hkind
      cases h
      exact ⟨_, _, .refl _ _, .endIndex (not_not.mp hkind) _ _ _⟩
    | argument name =>
      simp only [close] at h
      split_ifs at h with hkind
      cases h
      exact ⟨_, _, .refl _ _, .endArgument (not_not.mp hkind) _ _ _⟩
    | ifCondition =>
      simp only [close] at h
      split_ifs at h with hkind
      cases h
      exact ⟨_, _, .refl _ _, .endIf (not_not.mp hkind) _ _⟩
    | whileCondition =>
      simp only [close] at h
      split_ifs at h with hkind
      cases h
      exact ⟨_, _, .refl _ _, .endWhile (not_not.mp hkind) _ _⟩

/-- Behind an operand a token closes some contexts and is then taken. -/
theorem takes_of_afterOperand {t : Token} {stack : List Context} {e : Tree} {indexable : Bool}
    {step : Step} (h : afterOperand stack e indexable t = .ok step) :
    ∃ rest whole, Plugs stack e rest whole ∧ Takes t rest whole step := by
  unfold afterOperand at h
  split at h
  · rename_i hkind
    split_ifs at h
    · cases h
      exact ⟨_, _, .refl _ _, .index hkind _ _⟩
    · exact takes_of_close h
  · rename_i hkind
    cases h
    exact ⟨_, _, .refl _ _, .argument hkind _ _⟩
  · rename_i hkind
    refine ⟨_, _, plugs_reduce 0 stack _, ?_⟩
    simp only at h
    generalize reduce 0 stack _ = reduced at h ⊢
    obtain ⟨rest, target⟩ := reduced
    cases target with
    | var name =>
      cases h
      exact .assign hkind _ _
    | access base index =>
      cases h
      exact .assignCell hkind _ _ _
    | _ => contradiction
  · split at h
    · rename_i op hop
      cases h
      exact ⟨_, _, plugs_reduce op.level stack _, .operator hop _ _⟩
    · exact takes_of_close h

theorem exists_of_map_eq_ok {ε α β : Type} {f : α → β} {r : Except ε α} {b : β}
    (h : r.map f = .ok b) : ∃ a, r = .ok a ∧ b = f a := by
  cases r with
  | error fault => contradiction
  | ok a => exact ⟨a, rfl, (Except.ok.inj h).symm⟩

/-- A token that an expression being read accepts makes one of these moves. -/
theorem moves_of_feed {s : State} {t : Token} {step : Step} (h : s.feed t = .ok step) :
    Moves t s step := by
  obtain ⟨stack, focus⟩ := s
  have hopens : (operand stack t).map Step.shift = .ok step →
      (focus = .operand ∨ focus = .element ∨ focus = .item) → Moves t ⟨stack, focus⟩ step := by
    intro hmap hfocus
    obtain ⟨s, hs, rfl⟩ := exists_of_map_eq_ok hmap
    exact .opens focus (opens_of_operand hs) hfocus
  cases focus with
  | operand => exact hopens h (.inl rfl)
  | element =>
    cases stack with
    | nil => exact hopens h (.inr (.inl rfl))
    | cons context rest =>
      cases context with
      | elements done =>
        simp only [State.feed] at h
        split_ifs at h with hkind
        · cases h
          exact .emptyArray hkind done rest
        · exact hopens h (.inr (.inl rfl))
      | _ => exact hopens h (.inr (.inl rfl))
  | item =>
    cases stack with
    | nil => exact hopens h (.inr (.inr rfl))
    | cons context rest =>
      cases context with
      | block done =>
        simp only [State.feed] at h
        split_ifs at h with hkind
        · cases h
          exact .endBlock hkind done rest
        · exact hopens h (.inr (.inr rfl))
      | _ => exact hopens h (.inr (.inr rfl))
  | header header =>
    obtain ⟨s, hs, rfl⟩ := exists_of_map_eq_ok h
    exact .passes (passes_of_feed hs)
  | value e indexable =>
    obtain ⟨rest, whole, hplugs, htakes⟩ := takes_of_afterOperand h
    exact .takes indexable hplugs htakes

/-- An expression that ends with the input was closed context by context. -/
theorem plugs_of_closeAll {t : Token} {stack : List Context} {e whole : Tree}
    (h : State.closeAll t stack e = .ok whole) : Plugs stack e [] whole := by
  induction stack generalizing e with
  | nil =>
    cases h
    exact .refl _ _
  | cons context rest ih =>
    simp only [State.closeAll] at h
    split at h
    · exact .plug ‹_› (ih h)
    · contradiction

/-- A program that ends with the input ends between two expressions or behind one. -/
theorem cases_of_finish {p : Progress} {t : Token} {items : List Tree}
    (h : p.finish t = .ok items) :
    (p.current = none ∧ items = p.done.reverse) ∨
      ∃ stack e indexable whole, p.current = some ⟨stack, .value e indexable⟩ ∧
        Plugs stack e [] whole ∧ items = (whole :: p.done).reverse := by
  obtain ⟨done, _ | ⟨stack, focus⟩⟩ := p
  · cases h
    exact .inl ⟨rfl, rfl⟩
  · obtain ⟨whole, hwhole, rfl⟩ := exists_of_map_eq_ok h
    cases focus with
    | value e indexable =>
      exact .inr ⟨stack, e, indexable, whole, rfl, plugs_of_closeAll hwhole, rfl⟩
    | operand | element | item | header => contradiction

/-- A token that a program being read accepts makes one of these moves. -/
theorem advances_of_feed {p q : Progress} {t : Token} (h : p.feed t = .ok q) : Advances t p q := by
  obtain ⟨done, _ | s⟩ := p
  · obtain ⟨s, hs, rfl⟩ := exists_of_map_eq_ok h
    exact .begins done (opens_of_operand hs)
  · rw [feed_some] at h
    cases hstep : s.feed t with
    | error fault => simp [hstep, Except.bind] at h
    | ok step =>
      have hmoves := moves_of_feed hstep
      simp only [hstep, Except.bind] at h
      cases step with
      | shift s' =>
        cases h
        exact .shifts done hmoves
      | done e =>
        simp only [Progress.take] at h
        split_ifs at h with hkind
        · cases h
          exact .ends done hmoves hkind
        · obtain ⟨s', hs, rfl⟩ := exists_of_map_eq_ok h
          exact .restarts done hmoves (opens_of_operand hs)

/-- What every move keeps, of the program and of the tokens read so far, holds behind all tokens. -/
theorem foldlM_feed_invariant {P : List Token → Progress → Prop}
    (hstep : ∀ (before : List Token) (t : Token) (p q : Progress), Advances t p q → P before p →
      P (before ++ [t]) q)
    {ts : List Token} {p q : Progress} (h : ts.foldlM Progress.feed p = .ok q)
    (before : List Token) (hp : P before p) : P (before ++ ts) q := by
  induction ts generalizing p before with
  | nil =>
    cases h
    simpa using hp
  | cons t ts ih =>
    rw [List.foldlM_cons] at h
    cases hfeed : p.feed t with
    | error fault => simp [hfeed, bind, Except.bind] at h
    | ok next =>
      rw [hfeed] at h
      have hnext := hstep before t p next (advances_of_feed hfeed) hp
      simpa using ih h (before ++ [t]) hnext

end ExprLang.Parser
