import ExprLang.Proofs.Expr.Completion
import ExprLang.Proofs.Expr.Resumption

/-!
The parser reads what recursive descent reads. Each reader stands for a state of the parser, with
the contexts that the readers around it still have to close: an operand is read from where one must
start (`mirrors_primary`), the levels of operators leave an operand behind (`mirrors_level`), and an
expression is left to the context around it (`mirrors_expression`). The induction is the one by
which the readers end: whatever is read again stands behind a token. So recursive descent, which
might have run for ever, ends where the parser does, and the parser makes progress as recursive
descent does (`descent_progress`).
-/

set_option autoImplicit false

namespace ExprLang.Parser

open Token (Cursor Kind)

variable {c d : Cursor} {t : Token} {rest : List Token} {stack : List Context} {e : Tree}

/-! ### The readers and the states they stand for -/

/-- From each cursor at least `n` tokens further than `c`, expressions are read alike, wherever they
stand. -/
def MirrorsBeyond (n : Nat) (c : Cursor) : Prop :=
  ∀ d, c.Onward n d → ∀ stack, Below 0 stack →
    Mirrors (resume ⟨stack, .operand⟩ d) d (Descent.read .expression) (closing stack)

variable {α γ : Type} {m n : Nat}

theorem MirrorsBeyond.onward (h : MirrorsBeyond m c) (hd : c.Onward n d) {k : Nat}
    (hm : m ≤ n + k) : MirrorsBeyond k d :=
  fun e he ↦ h e ((hd.trans he).mono hm)

theorem MirrorsBeyond.read {q : Tree → Descent α} {k : α → Cursor → Except Fault (Tree × Cursor)}
    (h : MirrorsBeyond m c) (hd : c.Onward n d) (hm : m ≤ n) (hstack : Below 0 stack)
    (hq : ∀ e f, c.Onward (n + 1) f → Descent.Whole e f →
      Mirrors (closing stack e f) f (q e) k) :
    Mirrors (resume ⟨stack, .operand⟩ d) d ((Descent.read .expression) >>= q) k :=
  .bind (h d (hd.mono hm) stack hstack) fun e f hread ↦
    have hends := (Descent.expression_ends d).of_gives hread
    hq e f (hd.trans hends.1) hends.2

/-- The closing token of a context is read on both sides, or missed on both. -/
theorem Mirrors.shut {context : Context} {s : State} {q : Token → Descent α}
    {k : α → Cursor → Except Fault (Tree × Cursor)} (hd : c.Onward n d)
    (hclose : ∀ t, close t (context :: stack) e =
      if t.kind ≠ context.closer.1 then .error (wanting context.closer.1 context.closer.2 t)
      else .ok (.shift s))
    (hplug : context.plug? e = none)
    (hq : ∀ t, c.Onward (n + 1) d.advance → Mirrors (resume s d.advance) d.advance (q t) k) :
    Mirrors (closing (context :: stack) e d) d (Descent.require context.closer >>= q) k := by
  refine .require hd (fun t rest _ hkind hnext ↦ ?_) (fun t rest _ hkind ↦ ?_) ?_
  · rw [hclose, if_neg (not_not.mpr hkind)]
    exact hq t hnext
  · rw [hclose, if_pos hkind]
  · rw [State.closeAll, hplug]

/-- So is a token of a header. -/
theorem Mirrors.header {header : Header} {q : Token → Descent α}
    {k : α → Cursor → Except Fault (Tree × Cursor)} (hd : c.Onward n d)
    (hq : ∀ t rest, d.ahead = t :: rest → t.kind = header.wanted.1 → c.Onward (n + 1) d.advance →
      Mirrors (follow d ((header.pass stack t).map .shift)) d.advance (q t) k) :
    Mirrors (resume ⟨stack, .header header⟩ d) d (Descent.require header.wanted >>= q) k := by
  rw [resume_eq]
  refine .require hd (fun t rest hahead hkind hnext ↦ ?_) (fun t rest _ hkind ↦ ?_) rfl
  · have hfeed : State.feed ⟨stack, .header header⟩ t = (header.pass stack t).map .shift :=
      congrArg (Except.map Step.shift) (if_pos hkind)
    rw [hfeed]
    exact hq t rest hahead hkind hnext
  · exact congrArg (Except.map Step.shift) (if_neg hkind)

theorem mirrors_indices (h : MirrorsBeyond 1 c) (stack : List Context) (base : Tree) :
    Mirrors (resume ⟨stack, .value base true⟩ c) c (Descent.read (.indices base))
      fun e d ↦ resume ⟨stack, .value e true⟩ d := by
  induction c using Cursor.induction_onward generalizing base with
  | step c ih =>
    refine .read ?_
    rw [Reader.body]
    refine .accept (.refl c) (fun t rest hahead hkind hopen ↦ ?_) fun _ ↦ .pure rfl
    have hfeed : State.feed ⟨stack, .value base true⟩ t =
        .ok (.shift ⟨.subscript base :: stack, .operand⟩) := by
      simp [State.feed, afterOperand, hkind]
    rw [resume_cons hahead, hfeed]
    refine h.read hopen (by omega) trivial fun index d hd _ ↦ ?_
    refine .shut hd (fun _ ↦ rfl) rfl fun _ hclose ↦ ?_
    exact ih _ (hclose.mono (by omega)) (h.onward hclose (by omega)) (.access base index)

/-- The end of an array literal with the elements `done`. -/
def arrayEnd (stack : List Context) (done : List Tree) (c : Cursor) :
    Except Fault (Tree × Cursor) :=
  outcome c
    (fun t ↦ if t.kind = .rbracket then .ok (.shift ⟨stack, .value (.array done.reverse) true⟩)
      else .error (wanting .rbracket (Context.elements done).closer.2 t))
    fun t ↦ .error (wanting .rbracket (Context.elements done).closer.2 t)

theorem mirrors_elements (h : MirrorsBeyond 0 c) (stack : List Context) (done : List Tree) :
    Mirrors (resume ⟨.elements done :: stack, .operand⟩ c) c (Descent.read (.elements done))
      (arrayEnd stack) := by
  induction c using Cursor.induction_onward generalizing done with
  | step c ih =>
    refine .read ?_
    rw [Reader.body]
    refine h.read (.refl c) (by omega) trivial fun e d hd _ ↦ ?_
    refine .accept hd (fun t rest hahead hkind hcomma ↦ ?_) fun hcheck ↦ .pure ?_
    · have hclose : close t (.elements done :: stack) e =
          .ok (.shift ⟨.elements (e :: done) :: stack, .operand⟩) := by
        simp [close, hkind]
      rw [closing, outcome_cons hahead, hclose]
      exact ih _ (hcomma.mono (by omega)) (h.onward hcomma (by omega)) (e :: done)
    · refine outcome_congr (fun t rest hahead ↦ ?_) fun _ ↦ rfl
      have hcomma := Cursor.kind_ne_of_check hahead hcheck
      simp only [close]
      split
      · contradiction
      · rename_i hbracket
        rw [if_pos hbracket]
      · rename_i hbracket
        rw [if_neg hbracket]
        rfl

theorem mirrors_array (h : MirrorsBeyond 0 c) (stack : List Context) :
    Mirrors (resume ⟨.elements [] :: stack, .element⟩ c) c (Descent.read .array)
      fun e d ↦ resume ⟨stack, .value e true⟩ d := by
  refine .read ?_
  rw [Reader.body]
  have hdone : Mirrors (resume ⟨.elements [] :: stack, .element⟩ c) c
      (if c.check .rbracket = true then pure [] else Descent.read (.elements []))
      (arrayEnd stack) := by
    cases hcheck : c.check .rbracket with
    | false =>
      have hoperand : resume ⟨.elements [] :: stack, .element⟩ c =
          resume ⟨.elements [] :: stack, .operand⟩ c := by
        rw [resume_eq, resume_eq]
        exact outcome_congr (fun t rest hahead ↦ if_neg (Cursor.kind_ne_of_check hahead hcheck))
          fun _ ↦ rfl
      rw [hoperand]
      exact mirrors_elements h stack []
    | true =>
      refine .pure ?_
      rw [resume_eq]
      obtain ⟨t, rest, hahead, hkind⟩ := Cursor.exists_of_check hcheck
      rw [arrayEnd, outcome_cons hahead, outcome_cons hahead, if_pos hkind]
      exact congrArg (follow c) (if_pos hkind)
  refine .check (.bind hdone fun done d _ ↦ ?_)
  refine .require (.refl d) (fun t rest _ hkind _ ↦ ?_) (fun t rest _ hkind ↦ if_neg hkind) rfl
  have hbracket : t.kind = .rbracket := hkind
  rw [if_pos hbracket]
  exact .pure rfl

/-- Behind an expression of a block a semicolon may be left out. -/
theorem closing_block (hcheck : c.check .semicolon = false) (done : List Tree) :
    closing (.block done :: stack) e c = resume ⟨.block (e :: done) :: stack, .item⟩ c := by
  rw [resume_eq]
  refine outcome_congr (fun t rest hahead ↦ ?_) fun _ ↦ rfl
  have hsemicolon := Cursor.kind_ne_of_check hahead hcheck
  simp only [close, State.feed]
  split
  · contradiction
  · rename_i hbrace
    rw [if_pos hbrace]
  · rename_i hbrace
    rw [if_neg hbrace]

theorem mirrors_items (h : MirrorsBeyond 0 c) (stack : List Context) (done : List Tree) :
    Mirrors (resume ⟨.block done :: stack, .item⟩ c) c (Descent.read (.items done))
      fun done d ↦ resume ⟨.block done :: stack, .item⟩ d := by
  induction c using Cursor.induction_onward generalizing done with
  | step c ih =>
    refine .read ?_
    rw [Reader.body]
    refine .check (.atEnd ?_)
    by_cases hstop : (c.check .rbrace || c.atEnd) = true
    · rw [if_pos hstop]
      exact .pure rfl
    rw [if_neg hstop]
    obtain ⟨hbrace, hend⟩ := Bool.or_eq_false_iff.mp (Bool.eq_false_iff.mpr hstop)
    have hoperand : resume ⟨.block done :: stack, .item⟩ c =
        resume ⟨.block done :: stack, .operand⟩ c := by
      rw [resume_eq, resume_eq]
      refine outcome_congr (fun t rest hahead ↦ if_neg (Cursor.kind_ne_of_check hahead hbrace))
        fun hahead ↦ ?_
      rw [Cursor.atEnd, hahead] at hend
      contradiction
    rw [hoperand]
    refine h.read (.refl c) (by omega) trivial fun e d hd _ ↦ ?_
    refine .accept hd (fun t rest hahead hkind hsemicolon ↦ ?_) fun hcheck ↦ ?_
    · have hclose : close t (.block done :: stack) e =
          .ok (.shift ⟨.block (e :: done) :: stack, .item⟩) := by
        simp [close, hkind]
      rw [closing, outcome_cons hahead, hclose]
      exact ih _ (hsemicolon.mono (by omega)) (h.onward hsemicolon (by omega)) (e :: done)
    · rw [closing_block hcheck]
      exact ih d hd (h.onward hd (by omega)) (e :: done)

theorem mirrors_block (h : MirrorsBeyond 0 c) (stack : List Context) :
    Mirrors (resume ⟨.block [] :: stack, .item⟩ c) c (Descent.read .block)
      fun e d ↦ resume ⟨stack, .value e true⟩ d := by
  refine .read ?_
  rw [Reader.body]
  refine .bind (mirrors_items h stack []) fun done d hread ↦ ?_
  have hstop := (Descent.items_ends (Descent.endsBeyond 0 c) []).of_gives hread
  rw [resume_eq]
  refine .require (.refl d) (fun t rest _ hkind _ ↦ ?_) (fun t rest hahead hkind ↦ ?_) rfl
  · have hfeed : State.feed ⟨.block done :: stack, .item⟩ t =
        .ok (.shift ⟨stack, .value (.block done.reverse) true⟩) := if_pos hkind
    rw [hfeed]
    exact .pure rfl
  · -- The expressions of a block end at a closing brace or at the end of the input.
    have hbrace : t.kind = .rbrace := by
      simpa [Cursor.check_cons hahead, Cursor.atEnd, hahead] using hstop.2
    exact absurd hbrace hkind

theorem mirrors_loop (h : MirrorsBeyond 0 c) (stack : List Context) :
    Mirrors (resume ⟨stack, .header .whileOpen⟩ c) c (Descent.read .loop)
      fun e d ↦ resume ⟨stack, .value e true⟩ d := by
  refine .read ?_
  rw [Reader.body]
  refine .header (.refl c) fun _ _ _ _ hopen ↦ ?_
  refine h.read hopen (by omega) trivial fun condition d hd _ ↦ ?_
  refine .shut hd (fun _ ↦ rfl) rfl fun _ hclose ↦ ?_
  refine h.read hclose (by omega) trivial fun body e _ hwhole ↦ ?_
  exact .pure (closing_reopen (hwhole.of_ne_var (by simp)) (fun _ _ _ ↦ rfl) rfl)

theorem mirrors_branch (h : MirrorsBeyond 0 c) (stack : List Context) :
    Mirrors (resume ⟨stack, .header .ifOpen⟩ c) c (Descent.read .branch)
      fun e d ↦ resume ⟨stack, .value e true⟩ d := by
  refine .read ?_
  rw [Reader.body]
  refine .header (.refl c) fun _ _ _ _ hopen ↦ ?_
  refine h.read hopen (by omega) trivial fun condition d hd _ ↦ ?_
  refine .shut hd (fun _ ↦ rfl) rfl fun _ hclose ↦ ?_
  refine h.read hclose (by omega) trivial fun onTrue e he hwhole ↦ ?_
  refine .accept he (fun t rest hahead hkind helse ↦ ?_) fun hcheck ↦ .pure ?_
  · have hclose : close t (.ifThen condition :: stack) onTrue =
        .ok (.shift ⟨.ifElse condition onTrue :: stack, .operand⟩) := if_pos hkind
    rw [closing, outcome_cons hahead, hclose]
    refine h.read helse (by omega) trivial fun onFalse f _ hwhole ↦ ?_
    exact .pure (closing_reopen (hwhole.of_ne_var (by simp)) (fun _ _ _ ↦ rfl) rfl)
  · refine closing_reopen (hwhole.of_ne_var (by simp)) (fun t rest hahead ↦ ?_) rfl
    exact if_neg (Cursor.kind_ne_of_check hahead hcheck)

/-- Every token on the way carries what its kind says. -/
def Filled (c : Cursor) : Prop := ∀ t ∈ c.tokens, t.isFilled = true

theorem Filled.onward (h : Filled c) (hd : c.Onward n d) : Filled d := by
  unfold Filled
  rw [hd.1]
  exact h

theorem Filled.of_ahead (h : Filled c) (hahead : c.ahead = t :: rest) : t.isFilled = true := by
  refine h t ?_
  simp [Cursor.tokens, hahead]

theorem Filled.exists_ident? (h : Filled c) (hahead : c.ahead = t :: rest)
    (hkind : t.kind = .ident) : ∃ name, t.ident? = some name := by
  have hfilled := h.of_ahead hahead
  rw [Token.isFilled, hkind] at hfilled
  exact Option.isSome_iff_exists.mp hfilled

theorem Filled.exists_int? (h : Filled c) (hahead : c.ahead = t :: rest) (hkind : t.kind = .int) :
    ∃ n, t.int? = some n := by
  have hfilled := h.of_ahead hahead
  rw [Token.isFilled, hkind] at hfilled
  exact Option.isSome_iff_exists.mp hfilled

theorem mirrors_function (hfilled : Filled c) (h : MirrorsBeyond 0 c) (stack : List Context) :
    Mirrors (resume ⟨stack, .header .functionName⟩ c) c (Descent.read .function)
      fun e d ↦ resume ⟨stack, .value e true⟩ d := by
  refine .read ?_
  rw [Reader.body]
  refine .header (.refl c) fun t rest hahead hkind hname ↦ ?_
  obtain ⟨name, ht⟩ := hfilled.exists_ident? hahead hkind
  rw [Header.pass, ht]
  refine .header hname fun _ _ _ _ hopen ↦ ?_
  refine .header hopen fun u more hmore hkind hparameter ↦ ?_
  obtain ⟨parameter, hu⟩ := (hfilled.onward hopen).exists_ident? hmore hkind
  rw [Header.pass, hu]
  refine .header hparameter fun _ _ _ _ hclose ↦ ?_
  refine .name ht (.name hu ?_)
  refine h.read hclose (by omega) trivial fun body e _ hwhole ↦ ?_
  exact .pure (closing_reopen (hwhole.of_ne_var (by simp)) (fun _ _ _ ↦ rfl) rfl)

theorem operand_of_not_mem (h : t.kind ∉ Descent.operandKinds) :
    operand stack t = .error (.expectedOneOf operandForms t.kind t.span) := by
  unfold operand
  split
  all_goals first
    | rfl
    | (rename_i hkind
       exact absurd (hkind ▸ by decide) h)

theorem mirrors_primary (hfilled : Filled c) (h : MirrorsBeyond 1 c) (stack : List Context) :
    Mirrors (resume ⟨stack, .operand⟩ c) c (Descent.read .primary)
      fun e d ↦ resume ⟨stack, .value e true⟩ d := by
  refine .read ?_
  rw [Reader.body]
  refine .acceptAny (.refl c) (fun t rest hahead hkind hnext ↦ ?_) fun hcheck ↦ .here (.fail ?_)
  · have hrest : MirrorsBeyond 0 c.advance := h.onward hnext (by omega)
    have hfeed {s : State} (hoperand : operand stack t = .ok s) :
        resume ⟨stack, .operand⟩ c = resume s c.advance := by
      rw [resume_cons hahead]
      exact congrArg (fun r ↦ follow c (r.map Step.shift)) hoperand
    dsimp only
    split
    · rename_i hkind
      rw [hfeed (by rw [operand, hkind])]
      exact mirrors_array hrest stack
    · rename_i hkind
      rw [hfeed (by rw [operand, hkind])]
      exact mirrors_function (hfilled.onward hnext) hrest stack
    · rename_i hkind
      rw [hfeed (by rw [operand, hkind])]
      exact mirrors_loop hrest stack
    · rename_i hkind
      rw [hfeed (by rw [operand, hkind])]
      exact mirrors_branch hrest stack
    · rename_i hkind
      rw [hfeed (by rw [operand, hkind])]
      exact mirrors_block hrest stack
    · rename_i hkind
      obtain ⟨n, hn⟩ := hfilled.exists_int? hahead hkind
      rw [hfeed (s := ⟨stack, .value (.int n) true⟩) (by simp [operand, hkind, hn])]
      exact .number hn (.pure rfl)
    · rename_i hkind
      obtain ⟨name, hname⟩ := hfilled.exists_ident? hahead hkind
      rw [hfeed (s := ⟨stack, .value (.var name) true⟩) (by simp [operand, hkind, hname])]
      exact .name hname (.pure rfl)
    · have hparen : t.kind = .lparen := by
        simp only [Descent.operandKinds, List.mem_cons, List.not_mem_nil, or_false] at hkind
        tauto
      rw [hfeed (by rw [operand, hparen])]
      refine h.read hnext (by omega) trivial fun e d hd _ ↦ ?_
      exact .shut hd (fun _ ↦ rfl) rfl fun _ _ ↦ .pure rfl
  · rw [resume_eq]
    unfold outcome
    cases hahead : c.ahead with
    | nil =>
      rw [Cursor.peek, hahead]
      rfl
    | cons t rest =>
      have hkind : t.kind ∉ Descent.operandKinds := fun hmem ↦ by
        have hcheck' := List.any_eq_false.mp hcheck t.kind hmem
        simp [Cursor.check_cons hahead] at hcheck'
      rw [Cursor.peek, hahead]
      exact congrArg (fun r ↦ follow c (r.map Step.shift)) (operand_of_not_mem hkind)

theorem mirrors_access (hfilled : Filled c) (h : MirrorsBeyond 1 c) (stack : List Context) :
    Mirrors (resume ⟨stack, .operand⟩ c) c (Descent.read .access)
      fun e d ↦ resume ⟨stack, .value e false⟩ d := by
  refine .read ?_
  rw [Reader.body]
  refine .bind (mirrors_primary hfilled h stack) fun base d hread ↦ ?_
  have hd := (Descent.primary_ends (Descent.endsBeyond 1 c)).of_gives hread
  refine .bind (mirrors_indices (h.onward hd (by omega)) stack base) fun e f hread ↦ ?_
  obtain ⟨hf, hbracket⟩ := (Descent.indices_ends (Descent.endsBeyond 1 d) base).of_gives hread
  have hnext := hd.trans hf
  split
  · rename_i name
    refine .accept hnext (fun t rest hahead hkind hopen ↦ ?_) fun _ ↦
      .pure (resume_value hbracket stack _)
    have hfeed : State.feed ⟨stack, .value (.var name) true⟩ t =
        .ok (.shift ⟨.argument name :: stack, .operand⟩) := by
      simp [State.feed, afterOperand, hkind]
    rw [resume_cons hahead, hfeed]
    refine h.read hopen (by omega) trivial fun argument g hg _ ↦ ?_
    exact .shut hg (fun _ ↦ rfl) rfl fun _ _ ↦ .pure rfl
  · exact .pure (resume_value hbracket stack e)

theorem mirrors_operations {kinds : List Kind} {tighter : List (List Kind)}
    (hlevels : kinds :: tighter <:+ Descent.ladder)
    (h : ∀ d, c.Onward 1 d → ∀ stack, Below (Descent.ladder.length - tighter.length) stack →
      Mirrors (resume ⟨stack, .operand⟩ d) d (Descent.read (.level tighter))
        fun e f ↦ resume ⟨stack, .value e false⟩ f)
    (hstack : Below (Descent.ladder.length - (tighter.length + 1)) stack) (left : Tree)
    (hrests : Descent.Rests tighter left c) :
    Mirrors (resume ⟨stack, .value left false⟩ c) c (Descent.read (.operations kinds tighter left))
      fun e d ↦ resume ⟨stack, .value e false⟩ d := by
  induction c using Cursor.induction_onward generalizing left with
  | step c ih =>
    refine .read ?_
    rw [Reader.body]
    refine .acceptAny (.refl c) (fun t rest hahead hkind hnext ↦ ?_) fun _ ↦ .pure rfl
    obtain ⟨op, hop, hlevel⟩ := ofKind?_of_mem hlevels hkind
    have hfeed : State.feed ⟨stack, .value left false⟩ t =
        .ok (.shift ⟨.operator op left :: stack, .operand⟩) := by
      have hcall : ∀ name, left = .var name → t.kind ≠ .lparen := by
        rintro _ - hparen
        rw [hparen] at hop
        contradiction
      have hassign : t.kind ≠ .assign := by
        intro hassign
        rw [hassign] at hop
        contradiction
      have hreduce : reduce op.level stack left = (stack, left) :=
        reduce_of_below (hstack.mono (by omega)) left
      change afterOperand stack left false t = _
      rw [afterOperand_eq hcall, if_neg hassign, hop]
      simp only [hreduce]
    rw [resume_cons hahead, hfeed]
    have hbelow : Below (Descent.ladder.length - tighter.length) (.operator op left :: stack) := by
      change op.level < _
      omega
    refine .bind (h _ hnext _ hbelow) fun right d hread ↦ ?_
    obtain ⟨hd, hright⟩ :=
      (Descent.level_ends (Descent.endsBeyond 1 c.advance) tighter).of_gives hread
    have hlater := hnext.trans hd
    rw [resume_operator ((List.suffix_cons kinds tighter).trans hlevels) hright hlevel, hop]
    exact ih d (hlater.mono (by omega)) (fun f hf ↦ h f ((hlater.trans hf).mono (by omega))) _
      (hright.of_ne_var (by simp))

theorem mirrors_level (hfilled : Filled c) (h : MirrorsBeyond 1 c) {levels : List (List Kind)}
    (hlevels : levels <:+ Descent.ladder) {stack : List Context}
    (hstack : Below (Descent.ladder.length - levels.length) stack) :
    Mirrors (resume ⟨stack, .operand⟩ c) c (Descent.read (.level levels))
      fun e d ↦ resume ⟨stack, .value e false⟩ d := by
  induction levels generalizing c stack with
  | nil =>
    refine .read ?_
    rw [Reader.body]
    exact mirrors_access hfilled h stack
  | cons kinds tighter ih =>
    have htighter : tighter <:+ Descent.ladder := (List.suffix_cons kinds tighter).trans hlevels
    rw [List.length_cons] at hstack
    refine .read ?_
    rw [Reader.body]
    refine .bind (ih hfilled h htighter (hstack.mono (by omega))) fun left d hread ↦ ?_
    obtain ⟨hd, hrests⟩ := (Descent.level_ends (Descent.endsBeyond 1 c) tighter).of_gives hread
    refine mirrors_operations hlevels (fun e he stack hbelow ↦ ?_) hstack left hrests
    have hnext := hd.trans he
    exact ih (hfilled.onward hnext) (h.onward hnext (by omega)) htighter hbelow

theorem mirrors_assignment (hfilled : Filled c) (h : MirrorsBeyond 1 c) (hstack : Below 0 stack) :
    Mirrors (resume ⟨stack, .operand⟩ c) c (Descent.read .assignment) (closing stack) := by
  refine .read ?_
  rw [Reader.body]
  refine .bind (mirrors_level hfilled h (List.suffix_refl _) hstack) fun target d hread ↦ ?_
  obtain ⟨hd, hrests⟩ := (Descent.level_ends (Descent.endsBeyond 1 c) Descent.ladder).of_gives hread
  refine .accept hd (fun t rest hahead hkind hsign ↦ .here ?_) fun hcheck ↦
    .pure (resume_of_whole ⟨hrests, hcheck⟩)
  have hfeed : State.feed ⟨stack, .value target false⟩ t = assignTo t stack target := by
    change afterOperand stack target false t = _
    rw [afterOperand_eq (by simp [hkind]), if_pos hkind, reduce_of_below hstack]
  have hprevious : d.advance.previous = t := by
    simp [Cursor.advance, Cursor.previous, hahead]
  -- The right side is an assignment, which is all that an expression is.
  have hvalue (context : Context) (hbelow : Below 0 (context :: stack)) :
      Mirrors (resume ⟨context :: stack, .operand⟩ d.advance) d.advance
        (Descent.read .assignment) (closing (context :: stack)) :=
    Mirrors.read_iff.mp (h d.advance (hsign.mono (by omega)) _ hbelow)
  rw [resume_cons hahead, hfeed]
  split
  · exact (hvalue (.assign _) trivial).bind fun value e _ ↦ .pure rfl
  · exact (hvalue (.assignCell _ _) trivial).bind fun value e _ ↦ .pure rfl
  · rename_i hvar haccess
    refine .fail ?_
    rw [hprevious]
    unfold assignTo
    split
    · exact absurd rfl (hvar _)
    · exact absurd rfl (haccess _ _)
    · rfl

/-- Reading an expression token by token comes to what recursive descent comes to. -/
theorem mirrors_expression (hfilled : Filled c) (stack : List Context) (hstack : Below 0 stack) :
    Mirrors (resume ⟨stack, .operand⟩ c) c (Descent.read .expression) (closing stack) := by
  induction c using Cursor.induction_onward generalizing stack with
  | step c ih =>
    refine .read ?_
    rw [Reader.body]
    exact mirrors_assignment hfilled
      (fun d hd stack hstack ↦ ih d hd (hfilled.onward hd) stack hstack) hstack

/-! ### Programs -/

/-- What comes of reading the program on from `c`. -/
def programFrom (p : Progress) (c : Cursor) : Except Fault (List Tree) :=
  (c.ahead.foldlM Progress.feed p).bind (·.finish c.last)

/-- What comes of the program behind an expression. -/
def behindExpression (done : List Tree) (e : Tree) (c : Cursor) : Except Fault (List Tree) :=
  programFrom ⟨e :: done, none⟩ (c.accept .semicolon).2

theorem programFrom_some (done : List Tree) (s : State) (c : Cursor) :
    programFrom ⟨done, some s⟩ c =
      (resume s c).bind fun read ↦ behindExpression done read.1 read.2 := by
  induction c using Cursor.induction_onward generalizing s with
  | step c ih =>
    obtain ⟨passed, ahead, last⟩ := c
    cases ahead with
    | nil =>
      rw [resume_eq]
      change (s.finish last).map _ = ((s.finish last).map _).bind _
      cases s.finish last <;> rfl
    | cons t rest =>
      rw [resume_cons rfl]
      change ((Progress.feed ⟨done, some s⟩ t).bind fun p ↦ rest.foldlM Progress.feed p).bind _ = _
      rw [feed_some]
      cases hfeed : s.feed t with
      | error fault => rfl
      | ok step =>
        cases step with
        | shift s => exact ih _ (Cursor.onward_advance (Cursor.lt_of_ahead rfl)) s
        | done e =>
          by_cases hkind : t.kind = .semicolon
          · simp [follow, behindExpression, programFrom, Cursor.accept, Cursor.check, hkind,
              Progress.take, Except.bind, Cursor.advance]
          · simp only [follow, behindExpression, programFrom, Cursor.accept, Cursor.check, hkind,
              Progress.take, Except.bind, decide_false, if_false]
            rfl

theorem programFrom_none {done : List Tree} (hahead : c.ahead = t :: rest) :
    programFrom ⟨done, none⟩ c = programFrom ⟨done, some .start⟩ c := by
  have hfeed : Progress.feed ⟨done, none⟩ t = Progress.feed ⟨done, some .start⟩ t := by
    rw [feed_some]
    change (operand [] t).map _ = ((operand [] t).map _).bind _
    cases operand [] t <;> rfl
  simp only [programFrom, hahead, List.foldlM_cons, hfeed]

theorem closing_nil (e : Tree) (c : Cursor) : closing [] e c = .ok (e, c) := by
  unfold closing outcome
  cases c.ahead <;> rfl

theorem mirrors_statements (hfilled : Filled c) (done : List Tree) :
    Mirrors (programFrom ⟨done, none⟩ c) c (Descent.read (.statements done)) fun done _ ↦
      .ok done.reverse := by
  induction c using Cursor.induction_onward generalizing done with
  | step c ih =>
    refine .read ?_
    rw [Reader.body]
    refine .atEnd ?_
    cases hahead : c.ahead with
    | nil =>
      rw [Cursor.atEnd, hahead]
      refine .pure ?_
      simp [programFrom, hahead, Progress.finish]
      rfl
    | cons t rest =>
      have hend : ¬c.atEnd = true := by simp [Cursor.atEnd, hahead]
      rw [if_neg hend, programFrom_none hahead, programFrom_some]
      refine .bind ((mirrors_expression hfilled [] trivial).after _) fun e d hread ↦ ?_
      obtain ⟨hd, _⟩ := (Descent.expression_ends c).of_gives hread
      rw [closing_nil]
      change Mirrors (behindExpression done e d) d _ _
      refine .accept hd (fun u more hahead hkind hsemicolon ↦ ?_) fun hcheck ↦ ?_
      · have hnext : (d.accept .semicolon).2 = d.advance := by
          simp [Cursor.accept, Cursor.check_cons hahead, hkind]
        rw [behindExpression, hnext]
        exact ih _ (hsemicolon.mono (by omega)) (hfilled.onward hsemicolon) _
      · have hstay : (d.accept .semicolon).2 = d := by simp [Cursor.accept, hcheck]
        rw [behindExpression, hstay]
        exact ih d hd (hfilled.onward hd) _

/-- Recursive descent comes to what the parser comes to with an expression. -/
theorem descent_expression (hfilled : Filled c) :
    (Descent.read .expression c).Gives (expression c) := by
  obtain ⟨r, hr, -⟩ := Descent.expression_ends c
  have hmirrors := mirrors_expression hfilled [] trivial r hr
  have hresult : expression c = r := by
    change resume .start c = r
    rw [State.start, hmirrors]
    cases r with
    | error fault => rfl
    | ok read => exact closing_nil read.1 read.2
  rw [hresult]
  exact hr

/-- Recursive descent comes to what the parser comes to with a program. -/
theorem descent_program (hfilled : Filled c) :
    ∃ d, (Descent.program c).Gives ((program c).map (·, d)) := by
  obtain ⟨r, hr, -⟩ := Descent.statements_ends c []
  have hprogram : program c = r.bind fun read ↦ .ok read.1.reverse :=
    mirrors_statements hfilled [] r hr
  rw [hprogram]
  cases r with
  | error fault => exact ⟨c, hr.bind_error⟩
  | ok read => exact ⟨read.2, hr.bind (.ends _)⟩

/-- Where number and name tokens carry their payload, recursive descent comes from every cursor to
one result with an expression, which is that of the parser, and either something is wrong or a token
at least was taken and the last one was not passed. So each loop of it comes to an end, whatever was
read before: the operations of a level, the index signs, the elements of an array, the expressions
of a block and those of a program, and so does the reading of a program. -/
theorem descent_progress (c : Cursor) (hfilled : ∀ t ∈ c.tokens, t.isFilled = true) :
    (∀ r, (Descent.read .expression c).Gives r ↔ r = expression c) ∧
      (∀ e d, expression c = .ok (e, d) →
        d.tokens = c.tokens ∧ c.index < d.index ∧ d.index < c.tokens.length) ∧
      (∀ kinds tighter left, ∃ r, (Descent.read (.operations kinds tighter left) c).Gives r) ∧
      (∀ base, ∃ r, (Descent.read (.indices base) c).Gives r) ∧
      (∀ done, ∃ r, (Descent.read (.elements done) c).Gives r) ∧
      (∀ done, ∃ r, (Descent.read (.items done) c).Gives r) ∧
      (∀ done, ∃ r, (Descent.read (.statements done) c).Gives r) ∧
      ∃ d, ∀ r, (Descent.program c).Gives r ↔ r = (program c).map (·, d) := by
  have hexpression := descent_expression hfilled
  obtain ⟨d, hprogram⟩ := descent_program hfilled
  refine ⟨fun r ↦ ⟨(·.unique hexpression), (· ▸ hexpression)⟩, fun e d hread ↦ ?_,
    fun kinds tighter left ↦ ?_, fun base ↦ ?_, fun done ↦ ?_, fun done ↦ ?_, fun done ↦ ?_,
    d, fun r ↦ ⟨(·.unique hprogram), (· ▸ hprogram)⟩⟩
  · rw [hread] at hexpression
    obtain ⟨⟨htokens, hindex⟩, -⟩ := (Descent.expression_ends c).of_gives hexpression
    exact ⟨htokens, hindex, htokens ▸ d.index_lt⟩
  · have hlevel : ∀ d, c.Onward 1 d → Descent.Ends (Descent.read (.level tighter)) d fun e f ↦
        d.Onward 1 f ∧ Descent.Rests tighter e f :=
      fun d _ ↦ Descent.level_ends (Descent.endsBeyond 1 d) tighter
    exact (Descent.operations_ends hlevel kinds left).exists_gives
  · exact (Descent.indices_ends (Descent.endsBeyond 1 c) base).exists_gives
  · exact (Descent.elements_ends (Descent.endsBeyond 0 c) done).exists_gives
  · exact (Descent.items_ends (Descent.endsBeyond 0 c) done).exists_gives
  · exact (Descent.statements_ends c done).exists_gives

/-- A cursor behind the first token, in front of `a[1] = f(2) - 3`, an end mark and a name. -/
def assignmentAhead : Cursor :=
  ⟨[⟨.semicolon, ";", none, .zero⟩],
    [⟨.ident, "a", some (.ident "a"), .zero⟩, ⟨.lbracket, "[", none, .zero⟩,
      ⟨.int, "1", some (.int 1), .zero⟩, ⟨.rbracket, "]", none, .zero⟩,
      ⟨.assign, "=", none, .zero⟩, ⟨.ident, "f", some (.ident "f"), .zero⟩,
      ⟨.lparen, "(", none, .zero⟩, ⟨.int, "2", some (.int 2), .zero⟩,
      ⟨.rparen, ")", none, .zero⟩, ⟨.minus, "-", none, .zero⟩, ⟨.int, "3", some (.int 3), .zero⟩,
      .zero, ⟨.ident, "x", some (.ident "x"), .zero⟩], .zero⟩

/-- The assignment is read up to the end mark in the middle, and the program fails there. -/
theorem descent_progress_assignment :
    (∀ t ∈ assignmentAhead.tokens, t.isFilled = true) ∧
      (∃ d, (Descent.read .expression assignmentAhead).Gives (.ok (.assignCell (.var "a") (.int 1)
          (.binary .subtract (.call "f" (.int 2)) (.int 3)), d)) ∧
        d.index = 12 ∧ d.tokens = assignmentAhead.tokens) ∧
      (Descent.program assignmentAhead).Gives
        (.error (.expectedOneOf operandForms .eof .zero)) := by
  have hfilled : ∀ t ∈ assignmentAhead.tokens, t.isFilled = true := by decide
  obtain ⟨hexpression, hadvances, -, -, -, -, -, d, hprogram⟩ :=
    descent_progress assignmentAhead hfilled
  obtain ⟨d, hread, hindex⟩ : ∃ d, expression assignmentAhead =
      .ok (.assignCell (.var "a") (.int 1) (.binary .subtract (.call "f" (.int 2)) (.int 3)), d) ∧
        d.index = 12 := ⟨_, rfl, rfl⟩
  have hfails : program assignmentAhead = .error (.expectedOneOf operandForms .eof .zero) := rfl
  refine ⟨hfilled, ⟨d, ?_, hindex, (hadvances _ d hread).1⟩, ?_⟩
  · exact (hexpression _).mpr hread.symm
  · refine (hprogram _).mpr ?_
    rw [hfails]
    rfl

end ExprLang.Parser
