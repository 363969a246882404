import ExprLang.Proofs.Expr.Completion
import ExprLang.Proofs.Expr.Descent

/-!
The parser from the middle of its work, beside recursive descent. What comes of reading on depends
on the state and on what is ahead (`resume`), and one token or the end of the input settles it
(`outcome`). A reader of recursive descent stands beside that as the same result found in another
way (`Mirrors`), a relation that goes through a reader step by step (`Mirrors.bind`). Where a reader
stops at an operand, the state still holds the operations that the operand ends; it makes no
difference whether they are closed before the next token or by it (`resume_operator`,
`closing_reopen`).
-/

set_option autoImplicit false

namespace ExprLang.Parser

open Token (Cursor Kind)

/-! ### Reading on from a cursor -/

/-- What comes of reading on from `c` in state `s`. -/
def resume (s : State) (c : Cursor) : Except Fault (Tree × Cursor) :=
  expression.readOn c s c.ahead c.passed

/-- What comes of it when the token at `c` does this to an expression. -/
def follow (c : Cursor) : Except Fault Step → Except Fault (Tree × Cursor)
  | .error fault => .error fault
  | .ok (.shift s) => resume s c.advance
  | .ok (.done e) => .ok (e, c)

/-- What comes of the token at `c`, or of the end of the input. -/
def outcome (c : Cursor) (feed : Token → Except Fault Step) (finish : Token → Except Fault Tree) :
    Except Fault (Tree × Cursor) :=
  match c.ahead with
  | [] => (finish c.last).map (·, c)
  | t :: _ => follow c (feed t)

/-- What comes of the expression `e`, if the token at `c` does not extend it. -/
def closing (stack : List Context) (e : Tree) (c : Cursor) : Except Fault (Tree × Cursor) :=
  outcome c (close · stack e) (State.closeAll · stack e)

variable {c d : Cursor} {t : Token} {rest : List Token} {stack : List Context} {e : Tree}

/-- Of the cursor where an expression began, reading on uses the last token only. -/
theorem readOn_congr (h : c.last = d.last) (s : State) (ahead passed : List Token) :
    expression.readOn c s ahead passed = expression.readOn d s ahead passed := by
  induction ahead generalizing s passed with
  | nil => rw [expression.readOn, expression.readOn, h]
  | cons t ahead ih => simp only [expression.readOn, ih, h]

theorem resume_eq (s : State) (c : Cursor) : resume s c = outcome c s.feed s.finish := by
  obtain ⟨passed, ahead, last⟩ := c
  cases ahead with
  | nil => rfl
  | cons t ahead =>
    rw [resume, expression.readOn]
    change _ = follow _ (s.feed t)
    cases s.feed t with
    | error fault => rfl
    | ok step =>
      cases step with
      | shift s =>
        refine readOn_congr ?_ s ahead (t :: passed)
        rfl
      | done e => rfl

theorem outcome_cons {feed : Token → Except Fault Step} {finish : Token → Except Fault Tree}
    (h : c.ahead = t :: rest) : outcome c feed finish = follow c (feed t) := by
  rw [outcome, h]

theorem resume_cons {s : State} (h : c.ahead = t :: rest) : resume s c = follow c (s.feed t) := by
  rw [resume_eq, outcome_cons h]

/-- Only what the current token does counts, and what the end of the input does. -/
theorem outcome_congr {feed feed' : Token → Except Fault Step}
    {finish finish' : Token → Except Fault Tree}
    (hfeed : ∀ t rest, c.ahead = t :: rest → feed t = feed' t)
    (hfinish : c.ahead = [] → finish c.last = finish' c.last) :
    outcome c feed finish = outcome c feed' finish' := by
  unfold outcome
  cases hahead : c.ahead with
  | nil => rw [hfinish hahead]
  | cons t rest => exact congrArg (follow c) (hfeed t rest hahead)

/-! ### Readers and states -/

/-- `x` is what the reader `p` comes to at `c`, if `k` says what comes of what it reads. -/
def Mirrors {α γ : Type} (x : Except Fault γ) (c : Cursor) (p : Descent α)
    (k : α → Cursor → Except Fault γ) : Prop :=
  ∀ r, (p c).Gives r → x = r.bind fun read ↦ k read.1 read.2

namespace Mirrors

variable {α β γ : Type} {x : Except Fault γ} {k : β → Cursor → Except Fault γ}
  {m : α → Cursor → Except Fault γ}

theorem pure {b : β} (h : x = k b c) : Mirrors x c (Pure.pure b) k := by
  intro r hr
  cases hr
  exact h

theorem fail {fault : Fault} (h : x = .error fault) : Mirrors x c (Descent.fail fault) k := by
  intro r hr
  cases hr
  exact h

theorem bind {p : Descent α} {q : α → Descent β} (hp : Mirrors x c p m)
    (hq : ∀ a d, (p c).Gives (.ok (a, d)) → Mirrors (m a d) d (q a) k) :
    Mirrors x c (p >>= q) k := by
  intro r hr
  obtain ⟨fault, hfails, rfl⟩ | ⟨a, d, hread, hr⟩ := Reading.Gives.cases_of_bind hr
  · rw [hp _ hfails]
    rfl
  · rw [hp _ hread]
    exact hq a d hread r hr

/-- A call comes to what the reader comes to. -/
theorem read_iff {reader : Reader β} :
    Mirrors x c (Descent.read reader) k ↔ Mirrors x c reader.body k := by
  simp only [Mirrors, Descent.gives_read_iff]

theorem read {reader : Reader β} (h : Mirrors x c reader.body k) :
    Mirrors x c (Descent.read reader) k :=
  read_iff.mpr h

/-- Both sides may go on alike. -/
theorem after {δ : Type} {p : Descent α} (h : Mirrors x c p m) (f : γ → Except Fault δ) :
    Mirrors (x.bind f) c p fun a d ↦ (m a d).bind f := by
  intro r hr
  rw [h r hr]
  cases r <;> rfl

variable {n : Nat} {kind : Kind} {kinds : List Kind}

theorem accept {q : Bool → Descent β} (hd : c.Onward n d)
    (hyes : ∀ t rest, d.ahead = t :: rest → t.kind = kind → c.Onward (n + 1) d.advance →
      Mirrors x d.advance (q true) k)
    (hno : d.check kind = false → Mirrors x d (q false) k) :
    Mirrors x d (Descent.accept kind >>= q) k := by
  change Mirrors x (d.accept kind).2 (q (d.accept kind).1) k
  rw [Cursor.accept]
  cases hcheck : d.check kind with
  | false => exact hno hcheck
  | true =>
    obtain ⟨t, rest, hahead, hkind⟩ := Cursor.exists_of_check hcheck
    exact hyes t rest hahead hkind (hd.trans (Cursor.onward_advance (Cursor.lt_of_ahead hahead)))

theorem check {q : Bool → Descent β} (h : Mirrors x c (q (c.check kind)) k) :
    Mirrors x c (Descent.check kind >>= q) k := h

theorem atEnd {q : Bool → Descent β} (h : Mirrors x c (q c.atEnd) k) :
    Mirrors x c (Descent.atEnd >>= q) k := h

theorem here {q : Cursor → Descent β} (h : Mirrors x c (q c) k) :
    Mirrors x c (Descent.here >>= q) k := h

theorem acceptAny {q : Option Token → Descent β} (hd : c.Onward n d)
    (hyes : ∀ t rest, d.ahead = t :: rest → t.kind ∈ kinds → c.Onward (n + 1) d.advance →
      Mirrors x d.advance (q (some t)) k)
    (hno : d.checkAny kinds = false → Mirrors x d (q none) k) :
    Mirrors x d (Descent.acceptAny kinds >>= q) k := by
  change Mirrors x (d.acceptAny kinds).2 (q (d.acceptAny kinds).1) k
  rw [Cursor.acceptAny]
  cases hcheck : d.checkAny kinds with
  | false => exact hno hcheck
  | true =>
    obtain ⟨t, rest, hahead, hkind⟩ := Cursor.exists_of_checkAny hcheck
    rw [if_pos rfl, Cursor.peek_cons hahead]
    exact hyes t rest hahead hkind (hd.trans (Cursor.onward_advance (Cursor.lt_of_ahead hahead)))

/-- A token that must stand here is read on both sides, or missed on both. -/
theorem require {wanted : Kind × String} {q : Token → Descent β}
    {k : β → Cursor → Except Fault (Tree × Cursor)} {feed : Token → Except Fault Step}
    {finish : Token → Except Fault Tree} (hd : c.Onward n d)
    (hyes : ∀ t rest, d.ahead = t :: rest → t.kind = wanted.1 → c.Onward (n + 1) d.advance →
      Mirrors (follow d (feed t)) d.advance (q t) k)
    (hno : ∀ t rest, d.ahead = t :: rest → t.kind ≠ wanted.1 →
      feed t = .error (wanting wanted.1 wanted.2 t))
    (hend : finish d.last = .error (wanting wanted.1 wanted.2 d.last)) :
    Mirrors (outcome d feed finish) d (Descent.require wanted >>= q) k := by
  cases hcheck : d.check wanted.1 with
  | false =>
    intro r hr
    rw [Descent.require_of_check_eq_false hcheck] at hr
    cases hr
    unfold outcome
    cases hahead : d.ahead with
    | nil =>
      rw [Cursor.peek, hahead]
      exact congrArg (Except.map _) hend
    | cons t rest =>
      rw [Cursor.peek_cons hahead]
      exact congrArg (follow d) (hno t rest hahead (Cursor.kind_ne_of_check hahead hcheck))
  | true =>
    obtain ⟨t, rest, hahead, hkind⟩ := Cursor.exists_of_check hcheck
    unfold Mirrors
    rw [Descent.require_of_check hcheck, outcome_cons hahead, Cursor.peek_cons hahead]
    exact hyes t rest hahead hkind (hd.trans (Cursor.onward_advance (Cursor.lt_of_ahead hahead)))

theorem name {t : Token} {n : String} (h : t.ident? = some n) {q : String → Descent β}
    (hq : Mirrors x c (q n) k) : Mirrors x c (Descent.name t >>= q) k := by
  rw [Descent.name, h]
  exact hq

theorem number {t : Token} {n : Int64} (h : t.int? = some n) {q : Int64 → Descent β}
    (hq : Mirrors x c (q n) k) : Mirrors x c (Descent.number t >>= q) k := by
  rw [Descent.number, h]
  exact hq

end Mirrors

/-! ### Operators -/

/-- The operator that the expression being read stands behind, if it does, is of a looser level. -/
def Below (n : Nat) : List Context → Prop
  | .operator op _ :: _ => op.level < n
  | _ => True

theorem Below.mono {m n : Nat} (h : Below m stack) (hmn : m ≤ n) : Below n stack := by
  unfold Below at h ⊢
  split
  · exact Nat.lt_of_lt_of_le h hmn
  · trivial

theorem reduce_of_below {n : Nat} (h : Below n stack) (e : Tree) :
    reduce n stack e = (stack, e) := by
  unfold reduce
  split
  · exact if_neg (Nat.not_le.mpr h)
  · rfl

/-- The sign of an operator stands in the ladder where its level says. -/
theorem ladder_of_ofKind? {kind : Kind} {op : Operator} (h : Operator.ofKind? kind = some op) :
    ∃ kinds, Descent.ladder[op.level]? = some kinds ∧ kind ∈ kinds := by
  unfold Operator.ofKind? at h
  split at h <;> cases h <;> exact ⟨_, rfl, by decide⟩

/-- The operators of a level bind as tightly as the number of the levels before it says. -/
theorem ofKind?_of_mem {kinds : List Kind} {tighter : List (List Kind)} {kind : Kind}
    (h : kinds :: tighter <:+ Descent.ladder) (hkind : kind ∈ kinds) :
    ∃ op, Operator.ofKind? kind = some op ∧
      op.level + (tighter.length + 1) = Descent.ladder.length := by
  simp only [Descent.ladder, List.suffix_cons_iff, List.cons.injEq, List.suffix_nil,
    reduceCtorEq, or_false] at h
  rcases h with ⟨rfl, rfl⟩ | ⟨rfl, rfl⟩ | ⟨rfl, rfl⟩ | ⟨rfl, rfl⟩ | ⟨rfl, rfl⟩ | ⟨rfl, rfl⟩
  all_goals
    simp only [List.mem_cons, List.not_mem_nil, or_false] at hkind
    rcases hkind with rfl | rfl | rfl | rfl <;> exact ⟨_, rfl, rfl⟩

/-- An operator that binds at least as tightly as the first of some levels is among them. -/
theorem exists_mem_of_ofKind? {levels : List (List Kind)} {kind : Kind} {op : Operator}
    (h : levels <:+ Descent.ladder) (hop : Operator.ofKind? kind = some op)
    (hlevel : Descent.ladder.length ≤ op.level + levels.length) :
    ∃ kinds ∈ levels, kind ∈ kinds := by
  obtain ⟨kinds, hkinds, hkind⟩ := ladder_of_ofKind? hop
  obtain ⟨looser, hladder⟩ := h
  rw [← hladder, List.length_append] at hlevel
  rw [← hladder, List.getElem?_append_right (by omega)] at hkinds
  exact ⟨kinds, List.mem_of_getElem? hkinds, hkind⟩

/-- Behind an operand that stands whole, no operator of the levels follows. -/
theorem level_lt_of_rests {levels : List (List Kind)} (hlevels : levels <:+ Descent.ladder)
    (h : Descent.Rests levels e c) (hahead : c.ahead = t :: rest) {op : Operator}
    (hop : Operator.ofKind? t.kind = some op) :
    op.level + levels.length < Descent.ladder.length := by
  by_contra hlevel
  obtain ⟨kinds, hkinds, hkind⟩ := exists_mem_of_ofKind? hlevels hop (by omega)
  have hcheck : c.checkAny kinds = true :=
    List.any_eq_true.mpr ⟨t.kind, hkind, by simp [Cursor.check_cons hahead]⟩
  rw [h.2 kinds hkinds] at hcheck
  contradiction

/-- What a token does behind an operand that it neither indexes nor calls. -/
theorem afterOperand_eq (hcall : ∀ name, e = .var name → t.kind ≠ .lparen) :
    afterOperand stack e false t =
      if t.kind = .assign then assignTo t (reduce 0 stack e).1 (reduce 0 stack e).2
      else match Operator.ofKind? t.kind with
        | some op => .ok (.shift
            ⟨.operator op (reduce op.level stack e).2 :: (reduce op.level stack e).1, .operand⟩)
        | none => close t stack e := by
  unfold afterOperand
  split
  · rename_i hkind
    simp [hkind, Operator.ofKind?]
  · rename_i name hkind
    exact absurd hkind (hcall name rfl)
  · rename_i hkind
    simp [hkind]
  · rename_i hassign _
    exact (if_neg hassign).symm

/-- An operand that stands whole is the right one of the operation it was read for. -/
theorem resume_operator {op : Operator} {left right : Tree} {levels : List (List Kind)}
    (hlevels : levels <:+ Descent.ladder) (h : Descent.Rests levels right c)
    (hop : op.level + (levels.length + 1) = Descent.ladder.length) :
    resume ⟨.operator op left :: stack, .value right false⟩ c =
      resume ⟨stack, .value (.binary op left right) false⟩ c := by
  rw [resume_eq, resume_eq]
  refine outcome_congr (fun t rest hahead ↦ ?_) fun _ ↦ rfl
  change afterOperand _ _ _ _ = afterOperand _ _ _ _
  have hcall : ∀ name, right = .var name → t.kind ≠ .lparen :=
    fun name hname ↦ Cursor.kind_ne_of_check hahead (h.1 name hname)
  rw [afterOperand_eq hcall, afterOperand_eq fun _ h ↦ by cases h]
  have hreduce : ∀ n ≤ op.level,
      reduce n (.operator op left :: stack) right = reduce n stack (.binary op left right) :=
    fun n hn ↦ if_pos hn
  split_ifs with hassign
  · rw [hreduce 0 (Nat.zero_le _)]
  · cases hnext : Operator.ofKind? t.kind with
    | none => rfl
    | some next =>
      have hlevel := level_lt_of_rests hlevels h hahead hnext
      simp only [hreduce next.level (by omega)]

/-- Nothing is made of the token behind a whole expression by what could extend it. -/
theorem afterOperand_of_whole (h : Descent.Whole e c) (hahead : c.ahead = t :: rest) :
    afterOperand stack e false t = close t stack e := by
  have hcall : ∀ name, e = .var name → t.kind ≠ .lparen :=
    fun name hname ↦ Cursor.kind_ne_of_check hahead (h.1.1 name hname)
  rw [afterOperand_eq hcall, if_neg (Cursor.kind_ne_of_check hahead h.2)]
  cases hop : Operator.ofKind? t.kind with
  | none => rfl
  | some op =>
    have hlevel := level_lt_of_rests (List.suffix_refl _) h.1 hahead hop
    omega

theorem resume_of_whole (h : Descent.Whole e c) :
    resume ⟨stack, .value e false⟩ c = closing stack e c := by
  rw [resume_eq]
  exact outcome_congr (fun t rest hahead ↦ afterOperand_of_whole h hahead) fun _ ↦ rfl

/-- An operand that is not indexed might as well be one that cannot be. -/
theorem resume_value (h : c.check .lbracket = false) (stack : List Context) (e : Tree) :
    resume ⟨stack, .value e true⟩ c = resume ⟨stack, .value e false⟩ c := by
  rw [resume_eq, resume_eq]
  refine outcome_congr (fun t rest hahead ↦ ?_) fun _ ↦ rfl
  have hkind := Cursor.kind_ne_of_check hahead h
  change afterOperand _ _ _ _ = afterOperand _ _ _ _
  unfold afterOperand
  split
  · contradiction
  all_goals rfl

/-- An `if`, `while` or `func` whose last part is whole is an operand, which can be indexed. -/
theorem closing_reopen {context : Context} {part whole : Tree} (h : Descent.Whole whole c)
    (hclose : ∀ t rest, c.ahead = t :: rest →
      close t (context :: stack) part = reopen t stack whole (close t stack whole))
    (hplug : context.plug? part = some whole) :
    closing (context :: stack) part c = resume ⟨stack, .value whole true⟩ c := by
  rw [resume_eq]
  refine outcome_congr (fun t rest hahead ↦ ?_) fun _ ↦ ?_
  · rw [hclose t rest hahead]
    change _ = afterOperand stack whole true t
    unfold reopen
    split_ifs with hbracket
    · unfold afterOperand
      rw [hbracket]
      rfl
    · rw [← afterOperand_of_whole h hahead]
      unfold afterOperand
      split
      · contradiction
      all_goals rfl
  · rw [State.closeAll, hplug]
    rfl

end ExprLang.Parser
