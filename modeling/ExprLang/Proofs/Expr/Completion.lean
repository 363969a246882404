import ExprLang.Console.Entry
import ExprLang.Proofs.Expr.Moves
import ExprLang.Proofs.Expr.RoundTrip
import ExprLang.Proofs.Fault

/-!
Sources that stop too early. A fault is about the token that raises it (`Blames`), so it leaves room
for more input exactly if it is raised at the end. Only the names of a header are asked for behind
the tokens that carry them, and name tokens that were scanned carry one (`Progress.Named`). However
a source stops, the contexts it left open say how to go on (`Progress.ending`): each of them can be
closed, one after the other. So an input is reported as incomplete if and only if some further lines
complete it (`incomplete_iff_exists_completion`).
-/

set_option autoImplicit false

namespace ExprLang

/-- A number token carries a number, and a name token a name. -/
def Token.isFilled (t : Token) : Bool :=
  match t.kind with
  | .int => t.int?.isSome
  | .ident => t.ident?.isSome
  | _ => true

theorem Token.isSome_ident? {t : Token} (ht : t.isFilled = true) (hkind : t.kind = .ident) :
    t.ident?.isSome = true := by
  simpa only [Token.isFilled, hkind] using ht

namespace Parser

open Token (Mark)

/-! ### Headers that were given their names -/

/-- No name token of the header came without its name. -/
def Header.isNamed : Header → Bool
  | ifOpen | whileOpen | functionName => true
  | functionOpen name | functionParameter name => name.isSome
  | functionClose name parameter => name.isSome && parameter.isSome

/-- The header that is being read has its names, if one is. -/
def State.Named (s : State) : Prop := ∀ header, s.focus = .header header → header.isNamed = true

def Progress.Named (p : Progress) : Prop := ∀ s ∈ p.current, s.Named

theorem named_of_opens {t : Token} {stack : List Context} {s : State} (h : Opens t stack s) :
    s.Named := by
  intro header hheader
  cases h <;> cases hheader <;> rfl

theorem named_of_passes {t : Token} {stack : List Context} {header : Header} {s : State}
    (h : Passes t stack header s) (ht : t.isFilled = true) (hheader : header.isNamed = true) :
    s.Named := by
  rintro next hnext
  cases h with
  | functionName hkind =>
    cases hnext
    exact Token.isSome_ident? ht hkind
  | functionParameter hkind name =>
    cases hnext
    exact Bool.and_eq_true_iff.mpr ⟨hheader, Token.isSome_ident? ht hkind⟩
  | functionOpen =>
    cases hnext
    exact hheader
  | ifOpen | whileOpen | functionClose => cases hnext

theorem named_of_moves {t : Token} {s s' : State} (h : Moves t s (.shift s'))
    (ht : t.isFilled = true) (hs : s.Named) : s'.Named := by
  cases h with
  | opens _ hopens => exact named_of_opens hopens
  | passes hpasses => exact named_of_passes hpasses ht (hs _ rfl)
  | takes _ _ htakes =>
    cases htakes with
    | juxtapose hopens => exact named_of_opens hopens
    | _ => exact nofun
  | emptyArray | endBlock => exact nofun

/-- Tokens that carry what their kinds say give every header its names. -/
theorem named_of_foldlM {ts : List Token} {p : Progress} (hts : ∀ t ∈ ts, t.isFilled = true)
    (h : ts.foldlM Progress.feed .start = .ok p) : p.Named := by
  refine foldlM_feed_invariant (P := fun before p ↦ (∀ t ∈ before, t.isFilled = true) → p.Named)
    (fun before t p q hadvances hp hbefore ↦ ?_) h [] (fun _ ↦ nofun) hts
  obtain ⟨hread, ht⟩ := List.forall_mem_append.mp hbefore
  have hnamed := hp hread
  cases hadvances with
  | begins done hopens | restarts done _ hopens =>
    rintro _ ⟨⟩
    exact named_of_opens hopens
  | shifts done hmoves =>
    rintro _ ⟨⟩
    exact named_of_moves hmoves (ht t List.mem_cons_self) (hnamed _ rfl)
  | ends => exact nofun

/-! ### A fault is about the token that raises it -/

/-- The fault says that `t` stands where it cannot. -/
structure Blames (t : Token) (fault : Fault) : Prop where
  incomplete : fault.incomplete = decide (t.kind = .eof)
  position? : t.isFilled = true → fault.kind = .parse ∧ fault.position? = some t.span.start
  target : ∀ span, fault = .assignmentTarget span → t.kind = .assign

theorem blames_wanting (wanted : Token.Kind) (note : String) (t : Token) :
    Blames t (wanting wanted note t) :=
  ⟨rfl, fun _ ↦ ⟨rfl, rfl⟩, nofun⟩

theorem blames_expectedOneOf (forms : List String) (t : Token) :
    Blames t (.expectedOneOf forms t.kind t.span) :=
  ⟨rfl, fun _ ↦ ⟨rfl, rfl⟩, nofun⟩

theorem blames_payload_int {t : Token} (hkind : t.kind = .int) (h : t.int? = none) :
    Blames t (.payload .int t) := by
  refine ⟨by simp [Fault.payload, Fault.incomplete, hkind], fun hfilled ↦ ?_, nofun⟩
  simp [Token.isFilled, hkind, h] at hfilled

theorem blames_payload_ident {t : Token} (hkind : t.kind = .ident) (h : t.ident? = none) :
    Blames t (.payload .ident t) := by
  refine ⟨by simp [Fault.payload, Fault.incomplete, hkind], fun hfilled ↦ ?_, nofun⟩
  simp [Token.isFilled, hkind, h] at hfilled

theorem failsWith_operand (stack : List Context) (t : Token) :
    FailsWith (Blames t) (operand stack t) := by
  unfold operand
  split
  any_goals exact .ok _
  · rename_i hkind
    split
    · exact .ok _
    · rename_i hnone
      exact .error (blames_payload_int hkind hnone)
  · rename_i hkind
    split
    · exact .ok _
    · rename_i hnone
      exact .error (blames_payload_ident hkind hnone)
  · exact .error (blames_expectedOneOf _ t)

theorem failsWith_header {header : Header} (hheader : header.isNamed = true)
    (stack : List Context) (t : Token) : FailsWith (Blames t) (header.feed stack t) := by
  unfold Header.feed
  split_ifs with hkind
  · cases header with
    | ifOpen | whileOpen | functionName | functionOpen | functionParameter => exact .ok _
    | functionClose name? parameter? =>
      obtain ⟨hname, hparameter⟩ := Bool.and_eq_true_iff.mp hheader
      obtain ⟨name, rfl⟩ := Option.isSome_iff_exists.mp hname
      obtain ⟨parameter, rfl⟩ := Option.isSome_iff_exists.mp hparameter
      exact .ok _
  · exact .error (blames_wanting _ _ t)

theorem failsWith_reopen {t : Token} {next : Except Fault Step} (h : FailsWith (Blames t) next)
    (stack : List Context) (e : Tree) : FailsWith (Blames t) (reopen t stack e next) := by
  unfold reopen
  split_ifs
  · exact .ok _
  · exact h

theorem failsWith_close (t : Token) (stack : List Context) (e : Tree) :
    FailsWith (Blames t) (close t stack e) := by
  induction stack generalizing e with
  | nil => exact .ok _
  | cons context rest ih =>
    cases context with
    | operator | assign | assignCell => exact ih _
    | ifThen condition =>
      simp only [close]
      split_ifs
      · exact .ok _
      · exact failsWith_reopen (ih _) _ _
    | ifElse | whileBody | functionBody => exact failsWith_reopen (ih _) _ _
    | block done =>
      simp only [close]
      split
      · exact .ok _
      · exact .ok _
      · exact (failsWith_operand _ t).map _
    | elements done =>
      simp only [close]
      split
      · exact .ok _
      · exact .ok _
      · exact .error (blames_wanting _ _ t)
    | group | subscript | argument | ifCondition | whileCondition =>
      simp only [close]
      split_ifs
      · exact .error (blames_wanting _ _ t)
      · exact .ok _

theorem failsWith_assignTo {t : Token} (hkind : t.kind = .assign) (stack : List Context)
    (e : Tree) : FailsWith (Blames t) (assignTo t stack e) := by
  have htarget : Blames t (.assignmentTarget t.span) :=
    ⟨by simp [Fault.incomplete, hkind], fun _ ↦ ⟨rfl, rfl⟩, fun _ _ ↦ hkind⟩
  cases e with
  | var | access => exact .ok _
  | _ => exact .error htarget

theorem failsWith_afterOperand (stack : List Context) (e : Tree) (indexable : Bool) (t : Token) :
    FailsWith (Blames t) (afterOperand stack e indexable t) := by
  unfold afterOperand
  split
  · split_ifs
    · exact .ok _
    · exact failsWith_close t _ _
  · exact .ok _
  · rename_i hkind
    exact failsWith_assignTo hkind _ _
  · split
    · exact .ok _
    · exact failsWith_close t _ _

theorem failsWith_state_feed {s : State} (hs : s.Named) (t : Token) :
    FailsWith (Blames t) (s.feed t) := by
  have hoperand := (failsWith_operand s.stack t).map Step.shift
  unfold State.feed
  split
  · split_ifs
    · exact .ok _
    · exact hoperand
  · split_ifs
    · exact .ok _
    · exact hoperand
  · exact hoperand
  · exact hoperand
  · exact hoperand
  · exact (failsWith_header (hs _ ‹_›) _ t).map _
  · exact failsWith_afterOperand _ _ _ t

/-- What goes wrong when a token is read is about that token. -/
theorem failsWith_feed {p : Progress} (hp : p.Named) (t : Token) :
    FailsWith (Blames t) (p.feed t) := by
  obtain ⟨done, _ | s⟩ := p
  · exact (failsWith_operand [] t).map _
  · rw [feed_some]
    refine (failsWith_state_feed (hp s rfl) t).bind fun step ↦ ?_
    cases step with
    | shift s => exact .ok _
    | done e =>
      simp only [Progress.take]
      split_ifs
      · exact .ok _
      · exact (failsWith_operand [] t).map _

theorem failsWith_closeAll (t : Token) (stack : List Context) (e : Tree) :
    FailsWith (Blames t) (State.closeAll t stack e) := by
  induction stack generalizing e with
  | nil => exact .ok _
  | cons context rest ih =>
    simp only [State.closeAll]
    split
    · exact ih _
    · exact .error (blames_wanting _ _ t)

/-- What goes wrong when the input ends is about the token that ends it. -/
theorem failsWith_finish (p : Progress) (t : Token) : FailsWith (Blames t) (p.finish t) := by
  obtain ⟨done, _ | ⟨stack, focus⟩⟩ := p
  · exact .ok _
  · refine FailsWith.map ?_ _
    cases focus with
    | value e indexable => exact failsWith_closeAll t stack e
    | header h => exact .error (blames_wanting _ _ t)
    | item => exact .error (blames_wanting _ _ t)
    | operand | element => exact .error (blames_expectedOneOf _ t)

/-! ### Every state can be completed -/

/-- Marks that close a context once its expression stands there. -/
def Context.ending : Context → List Mark
  | group | argument _ => [.sign .rparen]
  | subscript _ | elements _ => [.sign .rbracket]
  | block _ => [.sign .rbrace]
  | ifCondition | whileCondition => [.sign .rparen, .number 0]
  | operator .. | assign _ | assignCell .. | ifThen _ | ifElse .. | whileBody _
  | functionBody .. => []

/-- Marks that lead from a header behind the expression it stands before. -/
def Header.ending : Header → List Mark
  | ifOpen | whileOpen => [.sign .lparen, .number 0, .sign .rparen, .number 0]
  | functionName => [.name "x", .sign .lparen, .name "x", .sign .rparen, .number 0]
  | functionOpen _ => [.sign .lparen, .name "x", .sign .rparen, .number 0]
  | functionParameter _ => [.name "x", .sign .rparen, .number 0]
  | functionClose _ _ => [.sign .rparen, .number 0]

/-- Marks that put an operand into the focus. -/
def Focus.ending : Focus → List Mark
  | operand | element | item => [.number 0]
  | header h => h.ending
  | value _ _ => []

/-- Marks that end the current expression. -/
def State.ending (s : State) : List Mark := s.focus.ending ++ s.stack.flatMap Context.ending

/-- Marks that end the program. -/
def Progress.ending (p : Progress) : List Mark := p.current.elim [] State.ending

/-- After `ms` the program may end. -/
def Completes (p : Progress) (ms : List Mark) : Prop :=
  ∃ q, readMarks p ms = .ok q ∧ ∀ t, ∃ items, q.finish t = .ok items

theorem Completes.append {p q : Progress} {ms ns : List Mark} (h : readMarks p ms = .ok q)
    (hrest : Completes q ns) : Completes p (ms ++ ns) := by
  obtain ⟨r, hread, hfinish⟩ := hrest
  exact ⟨r, (readMarks_append h ns).trans hread, hfinish⟩

/-- A context that needs no closing token is closed by the tokens that end every expression. -/
theorem close_plug {context : Context} {e whole : Tree} (h : context.plug? e = some whole)
    {t : Token} (ht : isCloser t = true) (rest : List Context) :
    close t (context :: rest) e = close t rest whole := by
  have helse : t.kind ≠ .else := by
    rcases isCloser_cases ht with h | h | h | h | h <;> simp [h]
  have hbracket : t.kind ≠ .lbracket := by
    rcases isCloser_cases ht with h | h | h | h | h <;> simp [h]
  cases context <;> simp only [Context.plug?, Option.some.injEq, reduceCtorEq] at h <;> subst h <;>
    simp [close, reopen, helse, hbracket]

/-- In a context that needs no closing token, an expression is completed as the whole it makes. -/
theorem Completes.plug {context : Context} {e whole : Tree} (h : context.plug? e = some whole)
    {done : List Tree} {rest : List Context} {ms : List Mark}
    (hhead : ∀ m ∈ ms.head?, isCloser m.token = true) (indexable : Bool)
    (hwhole : Completes ⟨done, some ⟨rest, .value whole indexable⟩⟩ ms) :
    Completes ⟨done, some ⟨context :: rest, .value e indexable⟩⟩ ms := by
  obtain ⟨q, hread, hfinish⟩ := hwhole
  cases ms with
  | nil =>
    refine ⟨_, rfl, fun t ↦ ?_⟩
    obtain ⟨items, hitems⟩ := hfinish t
    cases hread
    refine ⟨items, ?_⟩
    simpa [Progress.finish, State.finish, State.closeAll, h] using hitems
  | cons m ms =>
    have hm := hhead m rfl
    refine ⟨q, ?_, hfinish⟩
    have hfeed : Progress.feed ⟨done, some ⟨context :: rest, .value e indexable⟩⟩ m.token =
        Progress.feed ⟨done, some ⟨rest, .value whole indexable⟩⟩ m.token := by
      rw [feed_some, feed_some]
      simp only [State.feed, afterOperand_closer hm, close_plug h hm]
    simpa only [readMarks, List.map_cons, List.foldlM_cons, hfeed] using hread

/-- What closes contexts starts with a token that ends every expression. -/
theorem isCloser_head_ending (stack : List Context) :
    ∀ m ∈ (stack.flatMap Context.ending).head?, isCloser m.token = true := by
  induction stack with
  | nil => exact nofun
  | cons context rest ih =>
    cases context with
    | operator | assign | assignCell | ifThen | ifElse | whileBody | functionBody => exact ih
    | group | argument | subscript | elements | block | ifCondition | whileCondition =>
      rintro m ⟨⟩
      rfl

/-- A closing mark behind an operand goes to the context around it. -/
theorem readMarks_closer {k : Token.Kind} (hk : isCloser (Mark.sign k).token = true)
    {done : List Tree} {stack : List Context} {e : Tree} {indexable : Bool} {s : State}
    (h : close (Mark.sign k).token stack e = .ok (.shift s)) :
    readMarks ⟨done, some ⟨stack, .value e indexable⟩⟩ [.sign k] = .ok ⟨done, some s⟩ := by
  have hfeed : Progress.feed ⟨done, some ⟨stack, .value e indexable⟩⟩ (Mark.sign k).token =
      .ok ⟨done, some s⟩ := feed_shift ((afterOperand_closer hk stack e indexable).trans h)
  exact readMarks_cons hfeed []

/-- Behind an operand, closing the contexts around it completes the program. -/
theorem completes_value (done : List Tree) (stack : List Context) (e : Tree) (indexable : Bool) :
    Completes ⟨done, some ⟨stack, .value e indexable⟩⟩ (stack.flatMap Context.ending) := by
  induction stack generalizing e indexable with
  | nil => exact ⟨_, rfl, fun t ↦ ⟨_, rfl⟩⟩
  | cons context rest ih =>
    have hhead := isCloser_head_ending rest
    cases context with
    | operator | assign | assignCell | ifThen | ifElse | whileBody | functionBody =>
      exact .plug rfl hhead indexable (ih _ _)
    | group | argument => exact .append (readMarks_closer (k := .rparen) rfl rfl) (ih _ _)
    | subscript | elements => exact .append (readMarks_closer (k := .rbracket) rfl rfl) (ih _ _)
    | block => exact .append (readMarks_closer (k := .rbrace) rfl rfl) (ih _ _)
    | ifCondition =>
      have hbranch : Completes ⟨done, some ⟨.ifThen e :: rest, .value (.int 0) true⟩⟩
          (rest.flatMap Context.ending) := .plug rfl hhead true (ih _ _)
      change Completes _ ([.sign .rparen] ++ ([.number 0] ++ rest.flatMap Context.ending))
      exact .append (readMarks_closer rfl rfl) (.append rfl hbranch)
    | whileCondition =>
      have hloop : Completes ⟨done, some ⟨.whileBody e :: rest, .value (.int 0) true⟩⟩
          (rest.flatMap Context.ending) := .plug rfl hhead true (ih _ _)
      change Completes _ ([.sign .rparen] ++ ([.number 0] ++ rest.flatMap Context.ending))
      exact .append (readMarks_closer rfl rfl) (.append rfl hloop)

/-- A number can be read wherever an operand may start. -/
theorem readMarks_number {f : Focus} (hf : f.isStart = true) (done : List Tree)
    (stack : List Context) :
    readMarks ⟨done, some ⟨stack, f⟩⟩ [.number 0] =
      .ok ⟨done, some ⟨stack, .value (.int 0) true⟩⟩ := by
  have hfeed := feed_isStart hf (t := (Mark.number 0).token) rfl done stack
  simp only [readMarks, List.map_cons, List.map_nil, List.foldlM_cons, hfeed]
  rfl

/-- However far a program was read, it can be completed. -/
theorem completes_ending {p : Progress} (hp : p.Named) : Completes p p.ending := by
  obtain ⟨done, _ | ⟨stack, focus⟩⟩ := p
  · exact ⟨_, rfl, fun t ↦ ⟨_, rfl⟩⟩
  · cases focus with
    | operand | element | item => exact .append (readMarks_number rfl _ _) (completes_value _ _ _ _)
    | value e indexable => exact completes_value done stack e indexable
    | header h =>
      have hhead := isCloser_head_ending stack
      have hnamed : h.isNamed = true := hp _ rfl h rfl
      have hdefine : ∀ name parameter, Completes
          ⟨done, some ⟨.functionBody name parameter :: stack, .value (.int 0) true⟩⟩
          (stack.flatMap Context.ending) := fun _ _ ↦
        .plug rfl hhead true (completes_value _ _ _ _)
      cases h with
      | ifOpen =>
        have hbranch : Completes ⟨done, some ⟨.ifThen (.int 0) :: stack, .value (.int 0) true⟩⟩
            (stack.flatMap Context.ending) := .plug rfl hhead true (completes_value _ _ _ _)
        exact .append rfl hbranch
      | whileOpen =>
        have hloop : Completes ⟨done, some ⟨.whileBody (.int 0) :: stack, .value (.int 0) true⟩⟩
            (stack.flatMap Context.ending) := .plug rfl hhead true (completes_value _ _ _ _)
        exact .append rfl hloop
      | functionName => exact .append rfl (hdefine "x" "x")
      | functionOpen name? | functionParameter name? =>
        obtain ⟨name, rfl⟩ := Option.isSome_iff_exists.mp hnamed
        exact .append rfl (hdefine name "x")
      | functionClose name? parameter? =>
        obtain ⟨hname, hparameter⟩ := Bool.and_eq_true_iff.mp hnamed
        obtain ⟨name, rfl⟩ := Option.isSome_iff_exists.mp hname
        obtain ⟨parameter, rfl⟩ := Option.isSome_iff_exists.mp hparameter
        exact .append rfl (hdefine name parameter)

/-- A few marks are enough to complete any program. -/
theorem ending_subset (p : Progress) : p.ending ⊆ [.number 0, .name "x", .sign .lparen,
    .sign .rparen, .sign .rbracket, .sign .rbrace] := by
  have hcontext : ∀ c : Context, c.ending ⊆ [.number 0, .name "x", .sign .lparen,
      .sign .rparen, .sign .rbracket, .sign .rbrace] := by
    intro c
    cases c <;> simp [Context.ending]
  obtain ⟨done, _ | ⟨stack, focus⟩⟩ := p
  · exact List.nil_subset _
  · refine List.append_subset_of_subset_of_subset ?_ fun m hm ↦ ?_
    · cases focus with
      | header h => cases h <;> simp [Focus.ending, Header.ending]
      | operand | element | item | value => simp [Focus.ending]
    · obtain ⟨c, -, hc⟩ := List.mem_flatMap.mp hm
      exact hcontext c hc

/-! ### Texts that go on -/

/-- The token of a meaning, which stands nowhere. -/
def tokenOf (k : Token.Kind × Option Token.Literal) : Token := ⟨k.1, "", k.2, .zero⟩

/-- How far a program is read when all the tokens of a text can be. -/
def reach (p : Progress) (text : List Char) : Option Progress :=
  ((Token.lexemes text).mapM Token.read).toOption.bind fun keys ↦
    ((keys.map tokenOf).foldlM Progress.feed p).toOption

theorem toOption_bind {ε α β : Type} (r : Except ε α) (f : α → Except ε β) :
    (r >>= f).toOption = r.toOption.bind fun a ↦ (f a).toOption := by
  cases r <;> rfl

/-- A text that falls into the lexemes of two texts is read as the one and then as the other. -/
theorem reach_of_lexemes {whole first second : List Char}
    (h : Token.lexemes whole = Token.lexemes first ++ Token.lexemes second) (p : Progress) :
    reach p whole = (reach p first).bind (reach · second) := by
  simp only [reach, h, List.mapM_append, toOption_bind]
  cases ((Token.lexemes first).mapM Token.read).toOption with
  | none => rfl
  | some keys =>
    cases ((Token.lexemes second).mapM Token.read).toOption with
    | none => simp
    | some others =>
      change ((List.map tokenOf (keys ++ others)).foldlM Progress.feed p).toOption = _
      rw [List.map_append, List.foldlM_append, toOption_bind]
      rfl

/-- A text that goes on in a new line is read on from where it stopped. -/
theorem reach_append_line (p : Progress) (text rest : List Char) :
    reach p (text ++ '\n' :: rest) = (reach p text).bind (reach · rest) := by
  refine reach_of_lexemes ?_ p
  rw [Token.lexemes_append_cons text (by decide), Token.lexemes_cons_of_layout (by decide)]

/-- Marks with blanks between them are read one by one. -/
theorem reach_spaced (p : Progress) {ms : List Mark} (h : ∀ m ∈ ms, m.Legible) :
    reach p (Mark.spaced ms) = (readMarks p ms).toOption := by
  have htokens : (ms.map fun m ↦ m.token.key).map tokenOf = ms.map Mark.token := by
    rw [List.map_map]
    refine List.map_congr_left fun m _ ↦ ?_
    cases m <;> rfl
  rw [reach, Mark.lexemes_spaced fun m hm ↦ (h m hm).1, Mark.mapM_read_lexeme h]
  change (((ms.map fun m ↦ m.token.key).map tokenOf).foldlM Progress.feed p).toOption = _
  rw [htokens]
  rfl

/-- What completes a program can be written and read back. -/
theorem legible_ending (p : Progress) : ∀ m ∈ p.ending, m.Legible := by
  intro m hm
  have hmark := ending_subset p hm
  simp only [List.mem_cons, List.not_mem_nil, or_false] at hmark
  rcases hmark with rfl | rfl | rfl | rfl | rfl | rfl
  · exact Mark.legible_number (by decide)
  · exact Mark.legible_name (by decide)
  all_goals exact Mark.legible_sign (by decide)

theorem isFilled_of_read {lexeme : List Char} {t : Token} (h : Token.read lexeme = .ok t.key) :
    t.isFilled = true := by
  rcases Token.read_cases h with ⟨hkind, -, -, hliteral⟩ | ⟨hkind, hliteral, -⟩ |
    ⟨-, hint, hident, -⟩
  · simp [Token.isFilled, Token.int?, hkind, hliteral]
  · simp [Token.isFilled, Token.ident?, hkind, hliteral]
  · unfold Token.isFilled
    split
    · contradiction
    · contradiction
    · rfl

/-- What a text is read as has its names. -/
theorem named_of_reach {text : List Char} {p : Progress} (h : reach .start text = some p) :
    p.Named := by
  cases hkeys : (Token.lexemes text).mapM Token.read with
  | error cause =>
    rw [reach, hkeys] at h
    contradiction
  | ok keys =>
    rw [reach, hkeys] at h
    cases hfold : (keys.map tokenOf).foldlM Progress.feed .start with
    | error fault =>
      simp [Except.toOption, hfold] at h
    | ok q =>
      obtain rfl : q = p := by simpa [Except.toOption, hfold] using h
      refine named_of_foldlM (fun t ht ↦ ?_) hfold
      obtain ⟨key, hkey, rfl⟩ := List.mem_map.mp ht
      obtain ⟨lexeme, -, hread⟩ := Token.exists_of_mem_mapM hkeys hkey
      exact isFilled_of_read hread

/-- Wherever a program stands, some text takes it to a place where it may end. -/
theorem exists_reach_complete {p : Progress} (hp : p.Named) :
    ∃ text q, reach p text = some q ∧ ∀ t, ∃ items, q.finish t = .ok items := by
  obtain ⟨q, hread, hfinish⟩ := completes_ending hp
  refine ⟨Mark.spaced p.ending, q, ?_, hfinish⟩
  rw [reach_spaced p (legible_ending p), hread]
  rfl

/-- Reading stops at one of the tokens, if it stops at all, and the tokens before it are read. -/
theorem exists_of_foldlM_error {ts : List Token} {p : Progress} {fault : Fault}
    (h : ts.foldlM Progress.feed p = .error fault) :
    ∃ before t after q, ts = before ++ t :: after ∧ before.foldlM Progress.feed p = .ok q ∧
      q.feed t = .error fault := by
  induction ts generalizing p with
  | nil => contradiction
  | cons t ts ih =>
    rw [List.foldlM_cons] at h
    cases hfeed : p.feed t with
    | error other =>
      rw [hfeed] at h
      cases h
      exact ⟨[], t, ts, p, rfl, rfl, hfeed⟩
    | ok q =>
      rw [hfeed] at h
      obtain ⟨before, u, after, r, rfl, hbefore, hu⟩ := ih h
      refine ⟨t :: before, u, after, r, rfl, ?_, hu⟩
      rw [List.foldlM_cons, hfeed]
      exact hbefore

theorem exists_blames_of_foldlM {ts : List Token} {fault : Fault}
    (hts : ∀ t ∈ ts, t.isFilled = true) (h : ts.foldlM Progress.feed .start = .error fault) :
    ∃ t ∈ ts, Blames t fault := by
  obtain ⟨before, t, after, q, rfl, hbefore, hfeed⟩ := exists_of_foldlM_error h
  have hnamed := named_of_foldlM (fun u hu ↦ hts u (List.mem_append_left _ hu)) hbefore
  exact ⟨t, by simp, failsWith_feed hnamed t fault hfeed⟩

theorem map_key_tokenOf (keys : List (Token.Kind × Option Token.Literal)) :
    (keys.map tokenOf).map Token.key = keys := by
  rw [List.map_map]
  exact List.map_id _

theorem toOption_of_verdict {α : Type} {r s : Except Fault α} (h : verdict r = verdict s) :
    r.toOption = s.toOption := by
  cases r <;> cases s <;> simp_all [verdict, Except.mapError, Except.toOption]

/-- How far a source is read, and what is made of it, is decided by its tokens. -/
theorem reach_parse_of_read (file : String) {source : String}
    {keys : List (Token.Kind × Option Token.Literal)}
    (h : (Token.lexemes source.toList).mapM Token.read = .ok keys) :
    ∃ (ts : List Token) (place : Position), ts.map Token.key = keys ∧
      reach .start source.toList = (ts.foldlM Progress.feed .start).toOption ∧
      parse file source =
        (ts.foldlM Progress.feed .start).bind fun p ↦ p.finish (.endAt place) := by
  obtain ⟨ts, place, hscan, hts⟩ := Token.scan_of_read file h
  refine ⟨ts, place, hts, ?_, parse_of_scan hscan⟩
  have hsame := foldlM_feed_congr (hts.trans (map_key_tokenOf keys).symm) .start
  rw [reach, h, toOption_of_verdict hsame]
  rfl

/-- A source all of whose tokens can be read is a program, or stops too early. -/
theorem parse_of_reach (file : String) {source : String} {p : Progress}
    (h : reach .start source.toList = some p) :
    ∃ place, parse file source = p.finish (.endAt place) := by
  cases hkeys : (Token.lexemes source.toList).mapM Token.read with
  | error cause =>
    rw [reach, hkeys] at h
    contradiction
  | ok keys =>
    obtain ⟨ts, place, -, hreach, hparse⟩ := reach_parse_of_read file hkeys
    rw [h] at hreach
    cases hfold : ts.foldlM Progress.feed .start with
    | error fault =>
      rw [hfold] at hreach
      contradiction
    | ok q =>
      rw [hfold] at hreach hparse
      cases hreach
      exact ⟨place, hparse⟩

/-- A source one of whose tokens cannot be read is rejected for good. -/
theorem parse_of_not_reach (file : String) {source : String}
    (h : reach .start source.toList = none) :
    ∃ fault, parse file source = .error fault ∧ fault.incomplete = false := by
  cases hkeys : (Token.lexemes source.toList).mapM Token.read with
  | error cause =>
    obtain ⟨place, hscan⟩ := Token.scan_of_read_error file hkeys
    refine ⟨.lexical cause place, ?_, rfl⟩
    rw [parse, hscan]
    rfl
  | ok keys =>
    obtain ⟨ts, place, hts, hreach, hparse⟩ := reach_parse_of_read file hkeys
    rw [h] at hreach
    cases hfold : ts.foldlM Progress.feed .start with
    | ok q =>
      rw [hfold] at hreach
      contradiction
    | error fault =>
      rw [hfold] at hparse
      refine ⟨fault, hparse, ?_⟩
      have hlexeme : ∀ t ∈ ts, ∃ lexeme, Token.read lexeme = .ok t.key := by
        intro t ht
        have hkey : t.key ∈ keys := hts ▸ List.mem_map_of_mem ht
        obtain ⟨lexeme, -, hread⟩ := Token.exists_of_mem_mapM hkeys hkey
        exact ⟨lexeme, hread⟩
      have hfilled : ∀ t ∈ ts, t.isFilled = true := fun t ht ↦
        (hlexeme t ht).elim fun _ ↦ isFilled_of_read
      obtain ⟨t, ht, hblames⟩ := exists_blames_of_foldlM hfilled hfold
      obtain ⟨lexeme, hread⟩ := hlexeme t ht
      have hkind : t.kind ≠ .eof := Token.read_ne_eof hread
      rw [hblames.incomplete, decide_eq_false hkind]

/-! ### What is reported as incomplete -/

/-- Some further lines make the source a program. -/
def Completable (file source : String) : Prop :=
  ∃ rest items, parse file (source ++ "\n" ++ rest) = .ok items

theorem reach_append (source rest : String) :
    reach .start (source ++ "\n" ++ rest).toList =
      (reach .start source.toList).bind (reach · rest.toList) := by
  rw [← reach_append_line]
  simp

/-- A source can be completed exactly if all its tokens can be read. -/
theorem completable_iff (file source : String) :
    Completable file source ↔ (reach .start source.toList).isSome = true := by
  constructor
  · rintro ⟨rest, items, hparse⟩
    by_contra hnone
    rw [Option.not_isSome_iff_eq_none] at hnone
    have hrest : reach .start (source ++ "\n" ++ rest).toList = none := by
      rw [reach_append, hnone]
      rfl
    obtain ⟨fault, hfault, -⟩ := parse_of_not_reach file hrest
    rw [hparse] at hfault
    contradiction
  · intro hsome
    obtain ⟨p, hp⟩ := Option.isSome_iff_exists.mp hsome
    obtain ⟨text, q, hq, hfinish⟩ := exists_reach_complete (named_of_reach hp)
    have hrest : reach .start (source ++ "\n" ++ String.ofList text).toList = some q := by
      rw [reach_append, hp, String.toList_ofList]
      exact hq
    obtain ⟨place, hparse⟩ := parse_of_reach file hrest
    obtain ⟨items, hitems⟩ := hfinish (.endAt place)
    exact ⟨String.ofList text, items, hparse.trans hitems⟩

/-- A fault leaves room for more input exactly if all tokens before it could be read. -/
theorem incomplete_iff {file source : String} {fault : Fault}
    (h : parse file source = .error fault) :
    fault.incomplete = true ↔ (reach .start source.toList).isSome = true := by
  cases hreach : reach .start source.toList with
  | none =>
    obtain ⟨other, hother, hincomplete⟩ := parse_of_not_reach file hreach
    rw [h] at hother
    cases hother
    simp [hincomplete]
  | some p =>
    obtain ⟨place, hparse⟩ := parse_of_reach file hreach
    have hblames := failsWith_finish p (.endAt place) fault (hparse.symm.trans h)
    simp [hblames.incomplete, Token.endAt]

/-- Where the input ends only shows in the fault. -/
theorem finish_congr (p : Progress) (t u : Token) :
    verdict (p.finish t) = verdict (p.finish u) := by
  have hclose : ∀ stack e,
      verdict (State.closeAll t stack e) = verdict (State.closeAll u stack e) := by
    intro stack
    induction stack with
    | nil => exact fun _ ↦ rfl
    | cons context rest ih =>
      intro e
      simp only [State.closeAll]
      split
      · exact ih _
      · rfl
  obtain ⟨done, _ | ⟨stack, focus⟩⟩ := p
  · rfl
  · refine verdict_map _ ?_
    cases focus with
    | value e indexable => exact hclose stack e
    | header | item | operand | element => rfl

/-- A source that is rejected under one name is rejected under every name. -/
theorem parse_error_of_file {file source : String} {fault : Fault}
    (h : parse file source = .error fault) (other : String) :
    ∃ fault, parse other source = .error fault := by
  cases hreach : reach .start source.toList with
  | none =>
    obtain ⟨fault, hfault, -⟩ := parse_of_not_reach other hreach
    exact ⟨fault, hfault⟩
  | some p =>
    obtain ⟨place, hparse⟩ := parse_of_reach file hreach
    obtain ⟨otherPlace, hother⟩ := parse_of_reach other hreach
    have hverdict : verdict (p.finish (.endAt otherPlace)) = .error fault.kind := by
      rw [finish_congr p _ (.endAt place), ← hparse, h]
      rfl
    obtain ⟨otherFault, hfault, -⟩ := verdict_eq_error.mp hverdict
    exact ⟨otherFault, hother.trans hfault⟩

theorem ofSource_program (file source : String) :
    (Reading.ofSource file source).program = parse file source := by
  unfold Reading.ofSource parse
  cases Token.scan file source with
  | error fault => rfl
  | ok tokens =>
    simp only [Except.bind]
    cases program (.ofList tokens) <;> rfl

/-- Assumes: the source is rejected. The fault says that it stopped too early, and the console asks
for another line, if and only if further lines can complete it. What is rejected otherwise stays
rejected whatever follows. -/
theorem incomplete_iff_exists_completion (file source : String) {fault : Fault}
    (h : parse file source = .error fault) :
    (fault.incomplete = true ↔
      ∃ rest items, parse file (source ++ "\n" ++ rest) = .ok items) ∧
    (Console.needsMore source = true ↔
      ∃ rest items, parse file (source ++ "\n" ++ rest) = .ok items) := by
  have hcompletable := completable_iff file source
  refine ⟨(incomplete_iff h).trans hcompletable.symm, ?_⟩
  obtain ⟨other, hother⟩ := parse_error_of_file h Console.sourceName
  have hmore : Console.needsMore source = other.incomplete := by
    simp only [Console.needsMore, Reading.wantsMore, ofSource_program, hother]
  rw [hmore]
  exact (incomplete_iff hother).trans hcompletable.symm

/-- A call without its closing parenthesis can be completed, and a parenthesis that closes nothing
cannot. -/
theorem incomplete_iff_exists_completion_call :
    (∃ fault, parse "p" "f(1" = .error fault ∧ fault.incomplete = true ∧
      Console.needsMore "f(1" = true ∧
      ∃ rest items, parse "p" ("f(1" ++ "\n" ++ rest) = .ok items) ∧
    ∃ fault, parse "p" "1)" = .error fault ∧ fault.incomplete = false ∧
      Console.needsMore "1)" = false ∧
      ¬ ∃ rest items, parse "p" ("1)" ++ "\n" ++ rest) = .ok items := by
  have hcall : parse "p" "f(1" = .error (.expected "Expected ')' after function argument" .rparen
      .eof (Position.span ⟨"p", 1, 4⟩)) := rfl
  have hclosed : parse "p" "1)" = .error (.expectedOneOf operandForms .rparen
      ⟨⟨"p", 1, 2⟩, ⟨"p", 1, 2⟩⟩) := rfl
  obtain ⟨hfault, hmore⟩ := incomplete_iff_exists_completion "p" "f(1" hcall
  obtain ⟨hnever, hno⟩ := incomplete_iff_exists_completion "p" "1)" hclosed
  have hnone := mt hnever.mpr (by decide)
  refine ⟨⟨_, hcall, rfl, hmore.mpr (hfault.mp rfl), hfault.mp rfl⟩, _, hclosed, rfl, ?_, hnone⟩
  exact Bool.eq_false_iff.mpr (mt hno.mp hnone)

end Parser

end ExprLang
