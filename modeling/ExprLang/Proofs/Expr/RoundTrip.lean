import ExprLang.Proofs.Expr.Contexts
import ExprLang.Proofs.Expr.Spelling

/-!
Reading what was written. The marks of a valid tree without negative integers lead the parser, in
any context that the printer puts the tree into, to the state right behind that tree, and a negative
integer stops it with a parse fault (`leads_marks`). So a program reads back as it was written, and
one with a negative integer reads back as nothing at all (`parse_program`).
-/

set_option autoImplicit false

namespace ExprLang.Parser

open Token (Mark)
open ExprLang.Expr (marks marksList programMarks elseMarks)

/-- The program after some marks were read. -/
def readMarks (p : Progress) (ms : List Mark) : Except Fault Progress :=
  (ms.map Mark.token).foldlM Progress.feed p

theorem readMarks_cons {p q : Progress} {m : Mark} (h : p.feed m.token = .ok q)
    (ms : List Mark) : readMarks p (m :: ms) = readMarks q ms := by
  simp only [readMarks, List.map_cons, List.foldlM_cons, h]
  rfl

theorem readMarks_append_eq (p : Progress) (ms ns : List Mark) :
    readMarks p (ms ++ ns) = (readMarks p ms).bind fun q ↦ readMarks q ns := by
  simp only [readMarks, List.map_append, List.foldlM_append]
  rfl

theorem readMarks_append {p q : Progress} {ms : List Mark} (h : readMarks p ms = .ok q)
    (ns : List Mark) : readMarks p (ms ++ ns) = readMarks q ns := by
  rw [readMarks_append_eq, h]
  rfl

/-- `ms` take the program `p` to `q` if `fine` holds, and to a parse fault if it does not. -/
structure Leads (fine : Prop) (p : Progress) (ms : List Mark) (q : Progress) : Prop where
  reads : fine → readMarks p ms = .ok q
  fails : ¬ fine → verdict (readMarks p ms) = .error .parse

namespace Leads

variable {first second : Prop} {p q r : Progress} {ms ns : List Mark} {m : Mark}

theorem congr (h : Leads first p ms q) (hiff : second ↔ first) : Leads second p ms q :=
  ⟨fun hsecond ↦ h.reads (hiff.mp hsecond), fun hsecond ↦ h.fails fun hfirst ↦
    hsecond (hiff.mpr hfirst)⟩

theorem nil (h : first) : Leads first p [] p := ⟨fun _ ↦ rfl, fun hnot ↦ absurd h hnot⟩

theorem cons (hm : p.feed m.token = .ok q) (h : Leads first q ms r) :
    Leads first p (m :: ms) r := by
  have hread := readMarks_cons hm ms
  exact ⟨fun hfirst ↦ hread ▸ h.reads hfirst, fun hfirst ↦ hread ▸ h.fails hfirst⟩

theorem append (h : Leads first p ms q) (hrest : Leads second q ns r) :
    Leads (first ∧ second) p (ms ++ ns) r := by
  constructor
  · rintro ⟨hfirst, hsecond⟩
    rw [readMarks_append (h.reads hfirst)]
    exact hrest.reads hsecond
  · intro hnot
    by_cases hfirst : first
    · rw [readMarks_append (h.reads hfirst)]
      exact hrest.fails fun hsecond ↦ hnot ⟨hfirst, hsecond⟩
    · obtain ⟨fault, hfault, hkind⟩ := verdict_eq_error.mp (h.fails hfirst)
      rw [readMarks_append_eq, hfault]
      exact verdict_eq_error.mpr ⟨fault, rfl, hkind⟩

theorem last (h : Leads first p ms q) (hm : q.feed m.token = .ok r) :
    Leads first p (ms ++ [m]) r := by
  exact (h.append (cons hm (nil trivial))).congr (and_iff_left trivial).symm

end Leads

theorem feed_shift {done : List Tree} {s s' : State} {t : Token} (h : s.feed t = .ok (.shift s')) :
    Progress.feed ⟨done, some s⟩ t = .ok ⟨done, some s'⟩ := by
  rw [feed_some, h]
  rfl

/-- A closing mark behind an expression goes to the context around it. -/
theorem feed_closing {k : Token.Kind} (hk : isCloser (Mark.sign k).token = true)
    {done : List Tree} {stack : List Context} {e : Tree} {s : State}
    (h : close (Mark.sign k).token stack e = .ok (.shift s)) :
    Progress.feed ⟨done, some (behind stack e)⟩ (Mark.sign k).token = .ok ⟨done, some s⟩ :=
  feed_shift ((feed_behind hk stack e).trans h)

/-! ### Where an expression may start -/

/-- An operand may start here. -/
def Focus.isStart : Focus → Bool
  | .operand | .element | .item => true
  | .header _ | .value _ _ => false

/-- A binary operation waits for its right operand. -/
def awaitsOperand : List Context → Bool
  | .operator _ _ :: _ => true
  | _ => false

theorem reduce_of_not_awaitsOperand {stack : List Context} (h : awaitsOperand stack = false)
    (level : Nat) (e : Tree) : reduce level stack e = (stack, e) := by
  cases stack with
  | nil => rfl
  | cons context rest => cases context <;> first | rfl | contradiction

/-- Except for closing marks, all places where an operand may start are alike. -/
theorem feed_isStart {f : Focus} (hf : f.isStart = true) {t : Token} (ht : isCloser t = false)
    (done : List Tree) (stack : List Context) :
    Progress.feed ⟨done, some ⟨stack, f⟩⟩ t = Progress.feed ⟨done, some ⟨stack, .operand⟩⟩ t := by
  have hbracket : t.kind ≠ .rbracket := fun hkind ↦ by simp [isCloser, hkind] at ht
  have hbrace : t.kind ≠ .rbrace := fun hkind ↦ by simp [isCloser, hkind] at ht
  have hstate : State.feed ⟨stack, f⟩ t = State.feed ⟨stack, .operand⟩ t := by
    cases f with
    | operand => rfl
    | element =>
      cases stack with
      | nil => rfl
      | cons context rest => cases context <;> first | rfl | exact if_neg hbracket
    | item =>
      cases stack with
      | nil => rfl
      | cons context rest => cases context <;> first | rfl | exact if_neg hbrace
    | header _ => contradiction
    | value _ _ => contradiction
  rw [feed_some, feed_some, hstate]

/-- Between two expressions of a program the next one may start. -/
theorem feed_none (done : List Tree) (t : Token) :
    Progress.feed ⟨done, none⟩ t = Progress.feed ⟨done, some .start⟩ t := by
  rw [feed_some]
  change (operand [] t).map _ = ((operand [] t).map Step.shift).bind _
  cases operand [] t <;> rfl

/-- A valid tree starts with a mark, and not with a closing one. -/
theorem marks_eq_cons {e : Tree} (h : e.isValid = true) :
    ∃ m ms, e.marks = m :: ms ∧ isCloser m.token = false := by
  have henclosed : ∀ (closed : Bool) (base : Tree) (ns : List Mark),
      (∃ m ms, base.marks = m :: ms ∧ isCloser m.token = false) →
      ∃ m ms, enclosed closed base.marks ++ ns = m :: ms ∧ isCloser m.token = false := by
    rintro closed base ns ⟨m, ms, hmarks, hm⟩
    cases closed with
    | true => exact ⟨_, _, rfl, rfl⟩
    | false => exact ⟨m, ms ++ ns, by rw [hmarks]; rfl, hm⟩
  induction e using Expr.inductionOn with
  | int value =>
    rw [marks, numeral]
    cases value.toInt with
    | ofNat n => exact ⟨_, _, rfl, rfl⟩
    | negSucc n => exact ⟨_, _, rfl, rfl⟩
  | access base index hbase _ =>
    simp only [Expr.isValid, Bool.and_eq_true] at h
    exact henclosed _ base _ (hbase h.1)
  | assignCell base index value hbase _ _ =>
    simp only [Expr.isValid, Bool.and_eq_true] at h
    exact henclosed _ base _ (hbase h.1.1)
  | missing => contradiction
  | binary | var | assign | block | branch | loop | define | call | array =>
    exact ⟨_, _, rfl, rfl⟩

/-- A tree is read alike from two programs that treat all but closing marks alike. -/
theorem leads_of_feed_eq {e : Tree} (hvalid : e.isValid = true) {fine : Prop} {p p' q : Progress}
    (hfeed : ∀ t : Token, isCloser t = false → p'.feed t = p.feed t)
    (h : Leads fine p e.marks q) : Leads fine p' e.marks q := by
  obtain ⟨m, ms, hmarks, hm⟩ := marks_eq_cons hvalid
  have hread : readMarks p' e.marks = readMarks p e.marks := by
    simp only [hmarks, readMarks, List.map_cons, List.foldlM_cons, hfeed m.token hm]
  exact ⟨fun hfine ↦ hread ▸ h.reads hfine, fun hfine ↦ hread ▸ h.fails hfine⟩

/-! ### Trees -/

/-- No integer in the tree is negative. -/
def NonNegative (e : Tree) : Prop := ∀ value ∈ e.literals, 0 ≤ value.toInt

theorem minValue_not_mem_literals {e : Tree} (h : NonNegative e) : Int64.minValue ∉ e.literals :=
  fun hmin ↦ absurd (h _ hmin) (by decide)

/-- The marks of `e`, where an operand may start, lead behind `e`. -/
def Readable (e : Tree) : Prop :=
  ∀ (done : List Tree) (stack : List Context), (e.isOpen = true → awaitsOperand stack = false) →
    Leads (NonNegative e) ⟨done, some ⟨stack, .operand⟩⟩ e.marks ⟨done, some (behind stack e)⟩

/-- An expression that is enclosed if it is open can be read in any context. -/
theorem leads_enclosed {e : Tree} (h : Readable e) (closed : Bool)
    (hclosed : e.isOpen = true → closed = true) (done : List Tree) (stack : List Context) :
    Leads (NonNegative e) ⟨done, some ⟨stack, .operand⟩⟩ (enclosed closed e.marks)
      ⟨done, some ⟨stack, .value e (closed || !e.isCall)⟩⟩ := by
  cases closed with
  | true =>
    have hbody := h done (.group :: stack) fun _ ↦ rfl
    exact .cons rfl (hbody.last (feed_closing rfl rfl))
  | false =>
    have hopen : e.isOpen = false := Bool.eq_false_iff.mpr fun hopen ↦ nomatch hclosed hopen
    have hbody := h done stack fun hopen' ↦ by simp [hopen] at hopen'
    rwa [behind_of_not_isOpen hopen] at hbody

/-- The base of an index can always be indexed. -/
theorem leads_indexed {e : Tree} (h : Readable e) (done : List Tree) (stack : List Context) :
    Leads (NonNegative e) ⟨done, some ⟨stack, .operand⟩⟩
      (enclosed (e.isCall || e.isOpen) e.marks) ⟨done, some ⟨stack, .value e true⟩⟩ := by
  have hbase := leads_enclosed h (e.isCall || e.isOpen) (by simp +contextual) done stack
  have hindexable : (e.isCall || e.isOpen || !e.isCall) = true := by cases e.isCall <;> simp
  rwa [hindexable] at hbase

/-- Expressions in a list, with separators between them and a closer behind them. `wrap` is the
context of a list whose first expressions were read, and `build` makes the list a tree. -/
theorem leads_separated (wrap : List Tree → Context) (build : List Tree → Tree) (next : Focus)
    (separator closer : Token.Kind) (stack : List Context) (hnext : next.isStart = true)
    (hwrap : ∀ acc, awaitsOperand (wrap acc :: stack) = false)
    (hseparator : isCloser (Mark.sign separator).token = true)
    (hcloser : isCloser (Mark.sign closer).token = true)
    (hmore : ∀ acc e, close (Mark.sign separator).token (wrap acc :: stack) e =
      .ok (.shift ⟨wrap (e :: acc) :: stack, next⟩))
    (hend : ∀ acc e, close (Mark.sign closer).token (wrap acc :: stack) e =
      .ok (.shift ⟨stack, .value (build (e :: acc).reverse) true⟩))
    (done : List Tree) {first : Tree} {rest : List Tree}
    (hvalid : ∀ e ∈ first :: rest, e.isValid = true) (hread : ∀ e ∈ first :: rest, Readable e)
    (acc : List Tree) {f : Focus} (hf : f.isStart = true) :
    Leads (∀ e ∈ first :: rest, NonNegative e) ⟨done, some ⟨wrap acc :: stack, f⟩⟩
      ([.sign separator].intercalate (marksList (first :: rest)) ++ [.sign closer])
      ⟨done, some ⟨stack, .value (build (acc.reverse ++ first :: rest)) true⟩⟩ := by
  induction rest generalizing first acc f with
  | nil =>
    have hfirst := leads_of_feed_eq (hvalid first List.mem_cons_self)
      (fun t ht ↦ feed_isStart hf ht done (wrap acc :: stack))
      (hread first List.mem_cons_self done _ fun _ ↦ hwrap acc)
    have hlast := hfirst.last (feed_closing hcloser (hend acc first))
    simpa [Expr.marksList] using hlast
  | cons second rest ih =>
    have hfirst := leads_of_feed_eq (hvalid first List.mem_cons_self)
      (fun t ht ↦ feed_isStart hf ht done (wrap acc :: stack))
      (hread first List.mem_cons_self done _ fun _ ↦ hwrap acc)
    have hrest := ih (fun e he ↦ hvalid e (List.mem_cons_of_mem _ he))
      (fun e he ↦ hread e (List.mem_cons_of_mem _ he)) (first :: acc) hnext
    have hboth := hfirst.append (.cons (feed_closing hseparator (hmore acc first)) hrest)
    simp only [List.forall_mem_cons] at hboth ⊢
    simpa [Expr.marksList] using hboth

/-- The numeral of an integer is read as that integer, unless it is negative. -/
theorem leads_numeral (value : Int64) : Readable (.int value) := by
  intro done stack _
  rw [marks, numeral]
  cases hvalue : value.toInt with
  | ofNat n =>
    have hself : Int64.ofNat n = value := by
      rw [← Int64.ofInt_toInt value, hvalue]
      rfl
    refine ⟨fun _ ↦ ?_, fun hnot ↦ absurd ?_ hnot⟩
    · rw [← hself]
      rfl
    · simp [NonNegative, Expr.literals, hvalue]
  | negSucc n =>
    refine ⟨fun hfine ↦ ?_, fun _ ↦ rfl⟩
    have hnonneg := hfine value List.mem_cons_self
    rw [hvalue] at hnonneg
    contradiction

theorem nonNegative_list (items : List Tree) :
    (∀ value ∈ Expr.literalsList items, 0 ≤ value.toInt) ↔ ∀ e ∈ items, NonNegative e := by
  rw [Expr.literalsList_eq]
  exact List.forall_mem_flatMap

/-- An assignment sign behind a variable, or behind an array element, makes it a target. -/
theorem feed_assign {stack : List Context} (h : awaitsOperand stack = false) (done : List Tree)
    {e : Tree} {context : Context} (hcontext : assignTo (Mark.sign .assign).token stack e =
      .ok (.shift ⟨context :: stack, .operand⟩)) (indexable : Bool) :
    Progress.feed ⟨done, some ⟨stack, .value e indexable⟩⟩ (Mark.sign .assign).token =
      .ok ⟨done, some ⟨context :: stack, .operand⟩⟩ := by
  refine feed_shift ?_
  simp only [State.feed, afterOperand, Mark.token, reduce_of_not_awaitsOperand h]
  exact hcontext

/-- Reading the marks of a valid tree leads right behind it. -/
theorem leads_marks {e : Tree} (h : e.isValid = true) : Readable e := by
  induction e using Expr.inductionOn with
  | int value => exact leads_numeral value
  | binary op left right hleft hright =>
    simp only [Expr.isValid, Bool.and_eq_true] at h
    intro done stack _
    have hl := leads_enclosed (hleft h.1.2) _ id done (.group :: stack)
    have hr := leads_enclosed (hright h.2) _ id done (.operator op left :: .group :: stack)
    have hop : ∀ indexable, Progress.feed ⟨done, some ⟨.group :: stack, .value left indexable⟩⟩
        (Mark.sign op.kind).token =
          .ok ⟨done, some ⟨.operator op left :: .group :: stack, .operand⟩⟩ := by
      have hknown := h.1.1
      cases op <;> first | exact fun _ ↦ rfl | contradiction
    exact (Leads.cons rfl (hl.append (.cons (hop _) (hr.last rfl)))).congr List.forall_mem_append
  | var name =>
    intro done stack _
    exact .cons rfl (.nil (List.forall_mem_nil _))
  | assign name value hvalue =>
    simp only [Expr.isValid, Bool.and_eq_true] at h
    intro done stack hstack
    have hassign := feed_assign (e := .var name) (hstack rfl) done rfl true
    exact .cons rfl (.cons hassign (hvalue h.2 done _ fun _ ↦ rfl))
  | block items hitems =>
    rw [Expr.isValid, Expr.isValidList_eq, List.all_eq_true] at h
    intro done stack _
    cases items with
    | nil => exact .cons rfl (.cons rfl (.nil (List.forall_mem_nil _)))
    | cons first rest =>
      have hitem := leads_separated .block .block .item .semicolon .rbrace stack rfl (fun _ ↦ rfl)
        rfl rfl (fun _ _ ↦ rfl) (fun _ _ ↦ rfl) done h (fun e he ↦ hitems e he (h e he)) []
        (f := .item) rfl
      exact (Leads.cons rfl hitem).congr (nonNegative_list _)
  | branch condition onTrue onFalse hcondition hTrue hFalse =>
    simp only [Expr.isValid, Bool.and_eq_true] at h
    intro done stack _
    have hc := hcondition h.1.1 done (.ifCondition :: stack) fun _ ↦ rfl
    have ht := leads_enclosed (hTrue h.1.2) _ id done (.ifThen condition :: stack)
    cases onFalse with
    | none =>
      refine Leads.congr (.cons rfl (.cons rfl
        (hc.append (.cons (feed_closing rfl rfl) (ht.append (.nil trivial)))))) ?_
      simp [NonNegative, Expr.literals, Expr.literalsOption, or_imp, forall_and]
    | some other =>
      have ho := hFalse other rfl h.2 done (.ifElse condition onTrue :: stack) fun _ ↦ rfl
      refine Leads.congr (.cons rfl (.cons rfl
        (hc.append (.cons (feed_closing rfl rfl) (ht.append (.cons rfl ho)))))) ?_
      simp [NonNegative, Expr.literals, Expr.literalsOption, or_imp, forall_and]
  | loop condition body hcondition hbody =>
    simp only [Expr.isValid, Bool.and_eq_true] at h
    intro done stack _
    have hc := hcondition h.1 done (.whileCondition :: stack) fun _ ↦ rfl
    have hb := hbody h.2 done (.whileBody condition :: stack) fun _ ↦ rfl
    exact (Leads.cons rfl (.cons rfl
      (hc.append (.cons (feed_closing rfl rfl) hb)))).congr List.forall_mem_append
  | define mark name parameter body hbody =>
    simp only [Expr.isValid, Bool.and_eq_true] at h
    intro done stack _
    have hb := hbody h.2 done (.functionBody name parameter :: stack) fun _ ↦ rfl
    exact .cons rfl (.cons rfl (.cons rfl (.cons rfl (.cons rfl hb))))
  | call name argument hargument =>
    simp only [Expr.isValid, Bool.and_eq_true] at h
    intro done stack _
    have ha := hargument h.2 done (.argument name :: stack) fun _ ↦ rfl
    exact .cons rfl (.cons rfl (ha.last (feed_closing rfl rfl)))
  | array elements helements =>
    rw [Expr.isValid, Expr.isValidList_eq, List.all_eq_true] at h
    intro done stack _
    cases elements with
    | nil => exact .cons rfl (.cons rfl (.nil (List.forall_mem_nil _)))
    | cons first rest =>
      have helement := leads_separated .elements .array .operand .comma .rbracket stack rfl
        (fun _ ↦ rfl) rfl rfl (fun _ _ ↦ rfl) (fun _ _ ↦ rfl) done h
        (fun e he ↦ helements e he (h e he)) [] (f := .element) rfl
      exact (Leads.cons rfl helement).congr (nonNegative_list _)
  | access base index hbase hindex =>
    simp only [Expr.isValid, Bool.and_eq_true] at h
    intro done stack _
    have hb := leads_indexed (hbase h.1) done stack
    have hi := hindex h.2 done (.subscript base :: stack) fun _ ↦ rfl
    exact (hb.append (.cons rfl (hi.last (feed_closing rfl rfl)))).congr List.forall_mem_append
  | assignCell base index value hbase hindex hvalue =>
    simp only [Expr.isValid, Bool.and_eq_true] at h
    intro done stack hstack
    have hb := leads_indexed (hbase h.1.1) done stack
    have hi := hindex h.1.2 done (.subscript base :: stack) fun _ ↦ rfl
    have hassign := feed_assign (e := .access base index) (hstack rfl) done rfl true
    have hv := hvalue h.2 done (.assignCell base index :: stack) fun _ ↦ rfl
    refine Leads.congr (hb.append (.cons rfl
      (hi.append (.cons (feed_closing rfl rfl) (.cons hassign hv))))) ?_
    simp [NonNegative, Expr.literals, or_imp, forall_and]
  | missing => contradiction

/-! ### Programs -/

theorem finish_single (done : List Tree) (e : Tree) (t : Token) :
    Progress.finish ⟨done, some (behind [] e)⟩ t = .ok (done.reverse ++ [e]) := by
  simp [Progress.finish, finish_behind, State.closeAll, Except.map]

/-- A semicolon behind an expression ends it. -/
theorem feed_semicolon (done : List Tree) (e : Tree) :
    Progress.feed ⟨done, some (behind [] e)⟩ (Mark.sign .semicolon).token =
      .ok ⟨e :: done, none⟩ := by
  rw [feed_some, feed_behind rfl]
  rfl

/-- Reading the marks of a valid program, where `done` was read before, leads to its end. -/
theorem leads_programMarks {items : List Tree} (h : ∀ e ∈ items, e.isValid = true)
    (done : List Tree) :
    ∃ q, Leads (∀ e ∈ items, NonNegative e) ⟨done, none⟩ (programMarks items) q ∧
      ∀ t, q.finish t = .ok (done.reverse ++ items) := by
  induction items generalizing done with
  | nil => exact ⟨⟨done, none⟩, .nil (List.forall_mem_nil _), by simp [Progress.finish]⟩
  | cons first rest ih =>
    have hfirst := leads_of_feed_eq (h first List.mem_cons_self) (fun t _ ↦ feed_none done t)
      (leads_marks (h first List.mem_cons_self) done [] fun _ ↦ rfl)
    cases rest with
    | nil =>
      refine ⟨⟨done, some (behind [] first)⟩, ?_, finish_single done first⟩
      simpa [programMarks, Expr.marksList] using hfirst
    | cons second rest =>
      obtain ⟨q, hq, hfinish⟩ := ih (fun e he ↦ h e (List.mem_cons_of_mem _ he)) (first :: done)
      refine ⟨q, ?_, by simpa using hfinish⟩
      have hboth := hfirst.append (.cons (feed_semicolon done first) hq)
      simp only [List.forall_mem_cons] at hboth ⊢
      simpa [programMarks, Expr.marksList] using hboth

/-- Tokens with an end mark behind them are read one by one. -/
theorem program_ofList (ts : List Token) (place : Position) :
    program (.ofList (ts ++ [.endAt place])) =
      (ts.foldlM Progress.feed .start).bind fun p ↦ p.finish (.endAt place) := by
  have hcursor : Token.Cursor.ofList (ts ++ [.endAt place]) = ⟨[], ts, .endAt place⟩ := by
    simp [Token.Cursor.ofList, Token.endAt]
  rw [hcursor]
  rfl

/-- A source that can be scanned is read token by token. -/
theorem parse_of_scan {file source : String} {ts : List Token} {place : Position}
    (h : Token.scan file source = .ok (ts ++ [.endAt place])) :
    parse file source = (ts.foldlM Progress.feed .start).bind fun p ↦ p.finish (.endAt place) := by
  rw [parse, h]
  exact program_ofList ts place

theorem natAbs_toInt_lt {value : Int64} (h : value ≠ Int64.minValue) :
    value.toInt.natAbs < 0x8000000000000000 := by
  have hlow : Int64.minValue.toInt = -9223372036854775808 := rfl
  have hne : value.toInt ≠ -9223372036854775808 := fun heq ↦
    h (Int64.toInt_inj.mp (heq.trans hlow.symm))
  have hge := value.minValue_le_toInt
  have hlt := value.toInt_lt
  rw [hlow] at hge
  omega

/-- Without the least integer, all the marks of a valid tree can be read back. -/
theorem legible_of_mem_marks {e : Tree} (h : e.isValid = true)
    (hrange : Int64.minValue ∉ e.literals) : ∀ m ∈ e.marks, m.Legible :=
  Expr.forall_mem_marks (fun _ ↦ Mark.legible_sign) (fun _ ↦ Mark.legible_name) h
    fun _ hvalue ↦ Mark.legible_number (natAbs_toInt_lt fun hmin ↦ hrange (hmin ▸ hvalue))

theorem isWellFormed_of_mem_programMarks {items : List Tree} (h : ∀ e ∈ items, e.isValid = true) :
    ∀ m ∈ programMarks items, m.isWellFormed = true := by
  refine Expr.forall_mem_intercalate (by decide) fun e he ↦
    Expr.forall_mem_marks (fun k hk ↦ ?_) (fun s hs ↦ hs) (h e he) fun _ _ ↦ rfl
  simpa [Mark.isWellFormed] using hk

/-- A text in legible marks falls into tokens of these marks, wherever it stands. -/
theorem exists_tokens_of_spells {text : List Char} {ms : List Mark} (h : Expr.Spells text ms)
    (hlegible : ∀ m ∈ ms, m.Legible) (place : Position) :
    ∃ ts, (Token.drafts place none text).mapM Token.Draft.finish = .ok ts ∧
      ts.map Token.key = (ms.map Mark.token).map Token.key := by
  rw [List.map_map]
  refine Token.mapM_finish_of_read ?_
  rw [Token.map_characters_drafts_none, h]
  exact Mark.mapM_read_lexeme hlegible

theorem scan_of_spells (file : String) {source : String} {ms : List Mark}
    (h : Expr.Spells source.toList ms) (hlegible : ∀ m ∈ ms, m.Legible) :
    ∃ ts place, Token.scan file source = .ok (ts ++ [.endAt place]) ∧
      ts.map Token.key = (ms.map Mark.token).map Token.key := by
  obtain ⟨ts, hts, hkeys⟩ := exists_tokens_of_spells h hlegible ⟨file, 1, 1⟩
  exact ⟨ts, _, by rw [Token.scan_eq, hts]; rfl, hkeys⟩

/-- Tokens that mean the same as some marks are read as the marks are. -/
theorem foldlM_feed_of_readMarks {ts : List Token} {ms : List Mark} {p q : Progress}
    (hkeys : ts.map Token.key = (ms.map Mark.token).map Token.key) (h : readMarks p ms = .ok q) :
    ts.foldlM Progress.feed p = .ok q := by
  refine verdict_eq_ok.mp ?_
  rw [foldlM_feed_congr hkeys]
  exact verdict_eq_ok.mpr h

/-- A source in legible marks is read as what these marks lead to. -/
theorem parse_of_spells (file : String) {source : String} {ms : List Mark}
    (h : Expr.Spells source.toList ms) (hlegible : ∀ m ∈ ms, m.Legible) {q : Progress}
    (hread : readMarks .start ms = .ok q) {items : List Tree}
    (hfinish : ∀ t, q.finish t = .ok items) : parse file source = .ok items := by
  obtain ⟨ts, place, hscan, hkeys⟩ := scan_of_spells file h hlegible
  rw [parse_of_scan hscan, foldlM_feed_of_readMarks hkeys hread]
  exact hfinish _

theorem legible_of_mem_programMarks {items : List Tree} (h : ∀ e ∈ items, e.isValid = true)
    (hrange : ∀ e ∈ items, Int64.minValue ∉ e.literals) :
    ∀ m ∈ programMarks items, m.Legible :=
  Expr.forall_mem_intercalate (Mark.legible_sign (by decide)) fun e he ↦
    legible_of_mem_marks (h e he) (hrange e he)

/-- A valid program without the least integer is scanned into the tokens of its marks. -/
theorem scan_program (file : String) {items : List Tree} (h : ∀ e ∈ items, e.isValid = true)
    (hrange : ∀ e ∈ items, Int64.minValue ∉ e.literals) :
    ∃ ts place, Token.scan file (Expr.program items) = .ok (ts ++ [.endAt place]) ∧
      ts.map Token.key = ((programMarks items).map Mark.token).map Token.key :=
  scan_of_spells file (Expr.spells_program h) (legible_of_mem_programMarks h hrange)

/-- The least integer has a magnitude that cannot be scanned. -/
theorem scan_program_minValue (file : String) {items : List Tree}
    (h : ∀ e ∈ items, e.isValid = true) {e : Tree} (he : e ∈ items)
    (hmin : Int64.minValue ∈ e.literals) :
    ∃ cause place, Token.scan file (Expr.program items) = .error (.lexical cause place) := by
  have hspells : Token.lexemes (Expr.program items).toList = (programMarks items).map Mark.lexeme :=
    Expr.spells_program h
  have hmem : Mark.number 0x8000000000000000 ∈ programMarks items :=
    Expr.mem_intercalate he (Expr.number_mem_marks hmin)
  obtain ⟨cause, hcause⟩ :=
    Mark.mapM_read_lexeme_error (isWellFormed_of_mem_programMarks h) hmem (Nat.le_refl _)
  rw [← hspells] at hcause
  exact ⟨cause, Token.scan_of_read_error file hcause⟩

/-- A valid program without negative integers reads back as it was written. -/
theorem parse_program_of_nonNegative (file : String) {items : List Tree}
    (h : ∀ e ∈ items, e.isValid = true) (hfine : ∀ e ∈ items, NonNegative e) :
    parse file (Expr.program items) = .ok items := by
  have hrange : ∀ e ∈ items, Int64.minValue ∉ e.literals := fun e he ↦
    minValue_not_mem_literals (hfine e he)
  obtain ⟨q, hq, hfinish⟩ := leads_programMarks h []
  exact parse_of_spells file (Expr.spells_program h) (legible_of_mem_programMarks h hrange)
    (hq.reads hfine) hfinish

/-- A valid program with a negative integer, but not the least one, is a parse fault. -/
theorem parse_program_of_negative (file : String) {items : List Tree}
    (h : ∀ e ∈ items, e.isValid = true) (hnegative : ¬ ∀ e ∈ items, NonNegative e)
    (hrange : ∀ e ∈ items, Int64.minValue ∉ e.literals) :
    ∃ fault, parse file (Expr.program items) = .error fault ∧ fault.kind = .parse := by
  obtain ⟨ts, place, hscan, hkeys⟩ := scan_program file h hrange
  obtain ⟨q, hq, -⟩ := leads_programMarks h []
  have hread : verdict (ts.foldlM Progress.feed .start) = .error .parse := by
    rw [foldlM_feed_congr hkeys]
    exact hq.fails hnegative
  obtain ⟨fault, hfault, hkind⟩ := verdict_eq_error.mp hread
  exact ⟨fault, by rw [parse_of_scan hscan, hfault]; rfl, hkind⟩

/-- Writing and reading are inverse on valid programs. Without negative integers a program reads
back as the same trees. With one it is never read as another program: reading stops with a lexical
fault if it holds the least integer, whose magnitude is out of range, and with a parse fault if it
does not. -/
theorem parse_program (file : String) {items : List Tree} (h : ∀ e ∈ items, e.isValid = true) :
    ((∀ e ∈ items, ∀ value ∈ e.literals, 0 ≤ value.toInt) →
      parse file (Expr.program items) = .ok items) ∧
    ((∃ e ∈ items, ∃ value ∈ e.literals, value.toInt < 0) →
      ∃ fault, parse file (Expr.program items) = .error fault ∧
        ((∀ e ∈ items, Int64.minValue ∉ e.literals) → fault.kind = .parse) ∧
        ((∃ e ∈ items, Int64.minValue ∈ e.literals) → fault.kind = .lexical)) := by
  refine ⟨parse_program_of_nonNegative file h, ?_⟩
  rintro ⟨e, he, value, hvalue, hneg⟩
  by_cases hmin : ∃ e ∈ items, Int64.minValue ∈ e.literals
  · obtain ⟨e, he, hmem⟩ := hmin
    obtain ⟨cause, place, hscan⟩ := scan_program_minValue file h he hmem
    exact ⟨.lexical cause place, by rw [parse, hscan]; rfl, fun hnone ↦ absurd hmem (hnone e he),
      fun _ ↦ rfl⟩
  · have hnegative : ¬ ∀ e ∈ items, NonNegative e := fun hfine ↦
      absurd (hfine e he value hvalue) (by omega)
    have hrange : ∀ e ∈ items, Int64.minValue ∉ e.literals := fun e he hmem ↦ hmin ⟨e, he, hmem⟩
    obtain ⟨fault, hfault, hkind⟩ := parse_program_of_negative file h hnegative hrange
    exact ⟨fault, hfault, fun _ ↦ hkind, fun hsome ↦ absurd hsome hmin⟩

/-- A branch without `else` inside one that has it, an indexed call, and an assignment among
operands. -/
def nestedProgram : List Tree :=
  [.loop (.binary .less (.access (.call "f" (.int 0)) (.int 1)) (.assign "c" (.int 2)))
    (.branch (.var "x") (.branch (.var "y") (.array [.int 1, .var "z"]) none)
      (some (.block [.define () "g" "p" (.var "p"), .assignCell (.var "a") (.int 0) (.int 5)]))),
    .block []]

/-- A negative operand. -/
def negativeProgram : List Tree := [.binary .subtract (.var "x") (.int (-5))]

theorem parse_program_nested :
    parse "p" (Expr.program nestedProgram) = .ok nestedProgram ∧
      ∃ fault, parse "p" (Expr.program negativeProgram) = .error fault ∧ fault.kind = .parse := by
  have hnested : ∀ e ∈ nestedProgram, e.isValid = true := by decide
  have hnegative : ∀ e ∈ negativeProgram, e.isValid = true := by decide
  have hall : (nestedProgram.flatMap Expr.literals).all (fun value ↦ 0 ≤ value.toInt) = true := rfl
  have hfine : ∀ e ∈ nestedProgram, ∀ value ∈ e.literals, 0 ≤ value.toInt := by
    intro e he value hvalue
    have hmem := List.mem_flatMap.mpr ⟨e, he, hvalue⟩
    exact of_decide_eq_true (List.all_eq_true.mp hall value hmem)
  have hbelow : ∃ e ∈ negativeProgram, ∃ value ∈ e.literals, value.toInt < 0 :=
    ⟨_, List.mem_cons_self, -5, List.mem_cons_self, by decide⟩
  refine ⟨(parse_program "p" hnested).1 hfine, ?_⟩
  obtain ⟨fault, hfault, hkind, -⟩ := (parse_program "p" hnegative).2 hbelow
  exact ⟨fault, hfault, hkind (by decide)⟩

/-- The least integer is a valid tree and negative, and reading its text is no parse fault. -/
theorem parse_program_minValue :
    Expr.isValid (.int Int64.minValue : Tree) = true ∧ Int64.minValue.toInt < 0 ∧
      ∃ fault, parse "again.jaf" (Expr.program [(.int Int64.minValue : Tree)]) = .error fault ∧
        fault.kind ≠ .parse := by
  have hvalid : ∀ e ∈ [(.int Int64.minValue : Tree)], e.isValid = true := by decide
  obtain ⟨cause, place, hscan⟩ := scan_program_minValue "again.jaf" hvalid List.mem_cons_self
    List.mem_cons_self
  exact ⟨rfl, by decide, .lexical cause place, by rw [parse, hscan]; rfl, nofun⟩

end ExprLang.Parser
