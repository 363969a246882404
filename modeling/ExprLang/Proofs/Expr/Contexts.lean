import ExprLang.Expr.Parser
import ExprLang.Expr.Printer
import ExprLang.Proofs.Expr.Shape

/-!
How the parser reads marks. What it makes of a token depends on the token's kind and payload alone,
and a fault's class does too (`foldlM_feed_congr`), so tokens may be replaced by the marks they were
read from. Right behind an expression the parser still holds the contexts that the expression left
open (`behind`); a closing token, and the end of the input, treat it as if the whole expression
stood there (`feed_behind`, `finish_behind`).
-/

set_option autoImplicit false

namespace ExprLang.Parser

open Token (Mark)

/-! ### Tokens of the same meaning -/

/-- A result, with a fault known by its class only. -/
def verdict {α : Type} (r : Except Fault α) : Except Fault.Class α := r.mapError Fault.kind

theorem verdict_map {α β : Type} (f : α → β) {r s : Except Fault α} (h : verdict r = verdict s) :
    verdict (r.map f) = verdict (s.map f) := by
  cases r <;> cases s <;> simp_all [verdict, Except.mapError, Except.map]

theorem verdict_bind {α β : Type} {r s : Except Fault α} {f g : α → Except Fault β}
    (h : verdict r = verdict s) (hfg : ∀ a, verdict (f a) = verdict (g a)) :
    verdict (r.bind f) = verdict (s.bind g) := by
  cases r <;> cases s <;> simp_all [verdict, Except.mapError, Except.bind]

theorem operand_congr (stack : List Context) {t u : Token} (h : t.key = u.key) :
    verdict (operand stack t) = verdict (operand stack u) := by
  obtain ⟨kind, _, literal, _⟩ := t
  obtain ⟨_, _, _, _⟩ := u
  obtain ⟨rfl, rfl⟩ := Prod.mk.inj h
  unfold operand Token.int? Token.ident?
  cases kind <;> rfl

theorem header_feed_congr (header : Header) (stack : List Context) {t u : Token}
    (h : t.key = u.key) : verdict (header.feed stack t) = verdict (header.feed stack u) := by
  obtain ⟨kind, _, literal, _⟩ := t
  obtain ⟨_, _, _, _⟩ := u
  obtain ⟨rfl, rfl⟩ := Prod.mk.inj h
  unfold Header.feed
  by_cases hkind : kind = header.wanted.1
  · simp only [hkind, if_true]
    cases header <;> rfl
  · simp only [hkind, if_false]
    rfl

theorem close_congr {t u : Token} (h : t.key = u.key) (stack : List Context) (e : Tree) :
    verdict (close t stack e) = verdict (close u stack e) := by
  have hkind : t.kind = u.kind := congrArg Prod.fst h
  induction stack generalizing e with
  | nil => rfl
  | cons context rest ih =>
    cases context with
    | operator op left => exact ih _
    | assign name => exact ih _
    | assignCell base index => exact ih _
    | ifThen condition =>
      simp only [close, reopen, hkind]
      split_ifs
      · rfl
      · rfl
      · exact ih _
    | ifElse condition onTrue =>
      simp only [close, reopen, hkind]
      split_ifs
      · rfl
      · exact ih _
    | whileBody condition =>
      simp only [close, reopen, hkind]
      split_ifs
      · rfl
      · exact ih _
    | functionBody name parameter =>
      simp only [close, reopen, hkind]
      split_ifs
      · rfl
      · exact ih _
    | block done =>
      simp only [close, hkind]
      split
      · rfl
      · rfl
      · exact verdict_map _ (operand_congr _ h)
    | elements done =>
      simp only [close, hkind]
      split <;> rfl
    | group | subscript base | argument name | ifCondition | whileCondition =>
      simp only [close, hkind]
      split_ifs <;> rfl

theorem afterOperand_congr {t u : Token} (h : t.key = u.key) (stack : List Context) (e : Tree)
    (indexable : Bool) :
    verdict (afterOperand stack e indexable t) = verdict (afterOperand stack e indexable u) := by
  have hkind : t.kind = u.kind := congrArg Prod.fst h
  unfold afterOperand
  rw [hkind]
  split
  · split_ifs
    · rfl
    · exact close_congr h _ _
  · rfl
  · generalize reduce 0 stack _ = reduced
    obtain ⟨rest, target⟩ := reduced
    cases target <;> rfl
  · split
    · rfl
    · exact close_congr h _ _

theorem state_feed_congr {t u : Token} (h : t.key = u.key) (s : State) :
    verdict (s.feed t) = verdict (s.feed u) := by
  have hkind : t.kind = u.kind := congrArg Prod.fst h
  have hoperand : verdict ((operand s.stack t).map Step.shift) =
      verdict ((operand s.stack u).map Step.shift) := verdict_map _ (operand_congr _ h)
  unfold State.feed
  rw [hkind]
  split
  · split_ifs
    · rfl
    · exact hoperand
  · split_ifs
    · rfl
    · exact hoperand
  · exact hoperand
  · exact hoperand
  · exact hoperand
  · exact verdict_map _ (header_feed_congr _ _ h)
  · exact afterOperand_congr h _ _ _

theorem begin_congr {t u : Token} (h : t.key = u.key) (done : List Tree) :
    verdict (Progress.begin done t) = verdict (Progress.begin done u) :=
  verdict_map _ (operand_congr _ h)

/-- What becomes of a program when `t` has taken its current expression a step further. -/
def Progress.take (done : List Tree) (t : Token) : Step → Except Fault Progress
  | .shift s => .ok ⟨done, some s⟩
  | .done e => if t.kind = .semicolon then .ok ⟨e :: done, none⟩ else begin (e :: done) t

theorem feed_some (done : List Tree) (s : State) (t : Token) :
    Progress.feed ⟨done, some s⟩ t = (s.feed t).bind (Progress.take done t) := by
  unfold Progress.feed
  cases h : s.feed t with
  | error fault => simp [h, Except.bind]
  | ok step => cases step <;> simp [h, Except.bind, Progress.take]

/-- What a token does to a program being read depends on its meaning alone. -/
theorem feed_congr {t u : Token} (h : t.key = u.key) (p : Progress) :
    verdict (p.feed t) = verdict (p.feed u) := by
  have hkind : t.kind = u.kind := congrArg Prod.fst h
  obtain ⟨done, _ | s⟩ := p
  · exact begin_congr h done
  · rw [feed_some, feed_some]
    refine verdict_bind (state_feed_congr h s) fun step ↦ ?_
    cases step with
    | shift s => rfl
    | done e =>
      simp only [Progress.take, hkind]
      split_ifs
      · rfl
      · exact begin_congr h (e :: done)

theorem foldlM_feed_congr {ts us : List Token} (h : ts.map Token.key = us.map Token.key)
    (p : Progress) : verdict (ts.foldlM Progress.feed p) = verdict (us.foldlM Progress.feed p) := by
  induction ts generalizing us p with
  | nil =>
    cases us with
    | nil => rfl
    | cons u us => simp at h
  | cons t ts ih =>
    cases us with
    | nil => simp at h
    | cons u us =>
      simp only [List.map_cons, List.cons.injEq] at h
      simp only [List.foldlM_cons]
      exact verdict_bind (feed_congr h.1 p) fun q ↦ ih h.2 q

theorem verdict_eq_ok {α : Type} {r : Except Fault α} {a : α} :
    verdict r = .ok a ↔ r = .ok a := by
  cases r <;> simp [verdict, Except.mapError]

theorem verdict_eq_error {α : Type} {r : Except Fault α} {k : Fault.Class} :
    verdict r = .error k ↔ ∃ fault, r = .error fault ∧ fault.kind = k := by
  cases r <;> simp [verdict, Except.mapError]

/-! ### Behind an expression -/

/-- The state right behind the last token of an expression that was read in `stack`. What an
expression leaves open waits on the stack. -/
def behind (stack : List Context) : Tree → State
  | .assign name value => behind (.assign name :: stack) value
  | .assignCell base index value => behind (.assignCell base index :: stack) value
  | .branch condition onTrue none =>
    ⟨.ifThen condition :: stack, .value onTrue (onTrue.isOpen || !onTrue.isCall)⟩
  | .branch condition onTrue (some onFalse) => behind (.ifElse condition onTrue :: stack) onFalse
  | .loop condition body => behind (.whileBody condition :: stack) body
  | .define _ name parameter body => behind (.functionBody name parameter :: stack) body
  | e => ⟨stack, .value e (!e.isCall)⟩

/-- The tokens that end every expression before them. -/
def isCloser (t : Token) : Bool :=
  [.rparen, .rbracket, .rbrace, .semicolon, .comma].contains t.kind

theorem isCloser_cases {t : Token} (h : isCloser t = true) :
    t.kind = .rparen ∨ t.kind = .rbracket ∨ t.kind = .rbrace ∨ t.kind = .semicolon ∨
      t.kind = .comma := by
  simpa [isCloser] using h

theorem afterOperand_closer {t : Token} (h : isCloser t = true) (stack : List Context) (e : Tree)
    (indexable : Bool) : afterOperand stack e indexable t = close t stack e := by
  unfold afterOperand
  rcases isCloser_cases h with h | h | h | h | h <;> rw [h] <;> rfl

theorem behind_of_not_isOpen {e : Tree} (h : e.isOpen = false) (stack : List Context) :
    behind stack e = ⟨stack, .value e (!e.isCall)⟩ := by
  cases e <;> first | rfl | contradiction

/-- A closing token treats an expression as a whole. -/
theorem feed_behind {t : Token} (h : isCloser t = true) (stack : List Context) (e : Tree) :
    (behind stack e).feed t = close t stack e := by
  have helse : t.kind ≠ .else := by
    rcases isCloser_cases h with h | h | h | h | h <;> simp [h]
  have hbracket : t.kind ≠ .lbracket := by
    rcases isCloser_cases h with h | h | h | h | h <;> simp [h]
  induction e using Expr.inductionOn generalizing stack with
  | assign name value hvalue => exact hvalue _
  | assignCell base index value _ _ hvalue => exact hvalue _
  | branch condition onTrue onFalse _ _ hFalse =>
    cases onFalse with
    | none =>
      change afterOperand (.ifThen condition :: stack) onTrue _ t = _
      rw [afterOperand_closer h, close, if_neg helse, reopen, if_neg hbracket]
    | some other =>
      have hclose := hFalse other rfl (.ifElse condition onTrue :: stack)
      rwa [close, reopen, if_neg hbracket] at hclose
  | loop condition body _ hbody =>
    have hclose := hbody (.whileBody condition :: stack)
    rwa [close, reopen, if_neg hbracket] at hclose
  | define mark name parameter body hbody =>
    have hclose := hbody (.functionBody name parameter :: stack)
    rwa [close, reopen, if_neg hbracket] at hclose
  | int | binary | var | block | call | array | access | missing =>
    exact afterOperand_closer h stack _ _

/-- So does the end of the input. -/
theorem finish_behind (t : Token) (stack : List Context) (e : Tree) :
    (behind stack e).finish t = State.closeAll t stack e := by
  induction e using Expr.inductionOn generalizing stack with
  | assign name value hvalue => exact hvalue _
  | assignCell base index value _ _ hvalue => exact hvalue _
  | branch condition onTrue onFalse _ _ hFalse =>
    cases onFalse with
    | none => rfl
    | some other => exact hFalse other rfl _
  | loop condition body _ hbody => exact hbody _
  | define mark name parameter body hbody => exact hbody _
  | int | binary | var | block | call | array | access | missing => rfl

end ExprLang.Parser
