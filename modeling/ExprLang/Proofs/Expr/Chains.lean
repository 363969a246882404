import ExprLang.Proofs.Expr.Normal
import ExprLang.Proofs.Token.Places

/-!
Expressions in a row, with nothing but operators or assignment signs between them. Operands with
binary operators between them are read as the tree that is split at the rightmost operator of the
loosest level, and whose two sides are split in the same way (`parse_operations`): an operator
closes what stands between it and the last operator that binds less tightly, which is the left side
of such a split. With assignment signs between them everything but the last expression has to be a
variable or an array element, and the first that is not is told by the sign behind it
(`parse_assignments`).
-/

set_option autoImplicit false

namespace ExprLang

open Token (Mark)

namespace Operator

/-- The operators by how tightly they bind, the loosest first. -/
def ladder : List (List Operator) :=
  [[or], [and], [equal, notEqual], [less, lessEqual, greater, greaterEqual], [add, subtract],
    [multiply, divide]]

/-- How far up the ladder an operator stands. -/
def rung (op : Operator) : Nat := ladder.findIdx (·.contains op)

theorem level_eq_rung {op : Operator} (h : known.contains op = true) : op.level = op.rung := by
  cases op <;> first | contradiction | rfl

end Operator

/-- A normal tree whose text does not reach into what follows it. -/
structure Expr.Bounded {μ : Type} (e : Expr μ) : Prop where
  normal : e.Normal
  notOpen : e.isOpen = false

/-- The marks of a normal tree can be read back. -/
theorem Expr.Normal.legible {e : Tree} (h : e.Normal) : ∀ m ∈ e.marks, m.Legible :=
  Parser.legible_of_mem_marks h.valid (Parser.minValue_not_mem_literals h.nonneg)

theorem Expr.Normal.spells {e : Tree} (h : e.Normal) : Spells e.text.toList e.marks :=
  spells_text h.valid

namespace Parser

/-- An expression of a row becomes the operand at hand. -/
theorem reads_bounded {e : Tree} (h : e.Bounded) (done : List Tree) (stack : List Context) :
    readMarks ⟨done, some ⟨stack, .operand⟩⟩ e.marks =
      .ok ⟨done, some ⟨stack, .value e (!e.isCall)⟩⟩ := by
  have hlead := leads_marks h.normal.valid done stack fun hopen ↦ by simp [h.notOpen] at hopen
  rw [← behind_of_not_isOpen h.notOpen]
  exact hlead.reads h.normal.nonneg

/-- At its start a program is read as an expression. -/
theorem readMarks_start {ms : List Mark} (h : ms ≠ []) :
    readMarks .start ms = readMarks ⟨[], some ⟨[], .operand⟩⟩ ms := by
  cases ms with
  | nil => contradiction
  | cons m ms =>
    simp only [Progress.start, readMarks, List.map_cons, List.foldlM_cons, feed_none]
    rfl

theorem marks_ne_nil {e : Tree} (h : e.Normal) : e.marks ≠ [] := by
  obtain ⟨m, rest, hmarks, -⟩ := marks_eq_cons h.valid
  simp [hmarks]

/-! ### Binary operators -/

/-- The tree that operands with operators between them are grouped into. `first` is the first
operand, and a link is an operator with the operand behind it. The tree is split at the rightmost
operator of the loosest level. -/
inductive Groups : (first : Tree) → (links : List (Operator × Tree)) → Tree → Prop
  | single (e : Tree) : Groups e [] e
  | split {first next left right : Tree} {op : Operator} {before after : List (Operator × Tree)}
      (hbefore : ∀ link ∈ before, op.rung ≤ link.1.rung)
      (hafter : ∀ link ∈ after, op.rung < link.1.rung)
      (hleft : Groups first before left) (hright : Groups next after right) :
      Groups first (before ++ (op, next) :: after) (.binary op left right)

/-- Among some operators there is a rightmost one of the loosest level. -/
theorem exists_loosest {links : List (Operator × Tree)} (h : links ≠ []) :
    ∃ before op next after, links = before ++ (op, next) :: after ∧
      (∀ link ∈ before, op.rung ≤ link.1.rung) ∧ ∀ link ∈ after, op.rung < link.1.rung := by
  induction links with
  | nil => contradiction
  | cons link rest ih =>
    obtain ⟨head, operand⟩ := link
    by_cases hrest : rest = []
    · subst hrest
      exact ⟨[], head, operand, [], rfl, List.forall_mem_nil _, List.forall_mem_nil _⟩
    · obtain ⟨before, op, next, after, rfl, hbefore, hafter⟩ := ih hrest
      by_cases hle : op.rung ≤ head.rung
      · exact ⟨(head, operand) :: before, op, next, after, rfl,
          List.forall_mem_cons.mpr ⟨hle, hbefore⟩, hafter⟩
      · refine ⟨[], head, operand, _, rfl, List.forall_mem_nil _, ?_⟩
        rw [List.forall_mem_append, List.forall_mem_cons]
        have hlt := Nat.lt_of_not_le hle
        exact ⟨fun link hlink ↦ hlt.trans_le (hbefore link hlink), hlt,
          fun link hlink ↦ hlt.trans (hafter link hlink)⟩

/-- Every row of operands and operators is grouped into some tree. -/
theorem exists_groups (first : Tree) (links : List (Operator × Tree)) :
    ∃ tree, Groups first links tree := by
  induction hlength : links.length using Nat.strongRecOn generalizing first links with
  | ind length ih =>
    by_cases hlinks : links = []
    · exact ⟨first, hlinks ▸ .single first⟩
    · obtain ⟨before, op, next, after, rfl, hbefore, hafter⟩ := exists_loosest hlinks
      rw [List.length_append, List.length_cons] at hlength
      obtain ⟨left, hleft⟩ := ih before.length (by omega) first before rfl
      obtain ⟨right, hright⟩ := ih after.length (by omega) next after rfl
      exact ⟨.binary op left right, .split hbefore hafter hleft hright⟩

/-- Operands with operators between them, as they are written. -/
def operationText : (first : Tree) → (links : List (Operator × Tree)) → String
  | first, [] => first.text
  | first, (op, next) :: rest =>
    first.text ++ " " ++ op.symbol ++ " " ++ operationText next rest

def linkMarks (links : List (Operator × Tree)) : List Mark :=
  links.flatMap fun link ↦ .sign link.1.kind :: link.2.marks

/-- An operator that is written, and an operand that needs no parentheses. -/
def IsLink (link : Operator × Tree) : Prop :=
  Operator.known.contains link.1 = true ∧ link.2.Bounded

theorem spells_operationText {first : Tree} {links : List (Operator × Tree)} (hfirst : first.Normal)
    (hlinks : ∀ link ∈ links, IsLink link) :
    Expr.Spells (operationText first links).toList (first.marks ++ linkMarks links) := by
  induction links generalizing first with
  | nil => simpa [operationText, linkMarks] using hfirst.spells
  | cons link rest ih =>
    obtain ⟨op, next⟩ := link
    obtain ⟨⟨hop, hnext⟩, hrest⟩ := List.forall_mem_cons.mp hlinks
    have htext : (operationText first ((op, next) :: rest)).toList =
        first.text.toList ++ ' ' :: (op.symbol.toList ++
          ' ' :: (operationText next rest).toList) := by
      simp [operationText]
    rw [htext]
    exact hfirst.spells.cut rfl (.layout rfl
      ((Expr.Spells.symbol hop).cut rfl (.layout rfl (ih hnext.normal hrest))))

theorem legible_linkMarks {links : List (Operator × Tree)} (h : ∀ link ∈ links, IsLink link) :
    ∀ m ∈ linkMarks links, m.Legible := by
  rw [linkMarks, List.forall_mem_flatMap]
  intro link hlink
  obtain ⟨hop, hnext⟩ := h link hlink
  have hspelling : link.1.kind.spelling ≠ [] := by
    cases hkind : link.1 <;> rw [hkind] at hop <;> first | contradiction | decide
  exact List.forall_mem_cons.mpr ⟨Mark.legible_sign hspelling, hnext.normal.legible⟩

/-- An operator first closes the operations that bind at least as tightly. -/
theorem feed_operator {op : Operator} (h : Operator.known.contains op = true) (done : List Tree)
    (stack : List Context) (e : Tree) (indexable : Bool) :
    Progress.feed ⟨done, some ⟨stack, .value e indexable⟩⟩ (Mark.sign op.kind).token =
      .ok ⟨done, some ⟨.operator op (reduce op.level stack e).2 :: (reduce op.level stack e).1,
        .operand⟩⟩ := by
  cases op <;> first | contradiction | rfl

/-- Reading the links behind `first` leaves some operations open. An operator as loose as all the
links closes all of them, and what they are closed to is what the row is grouped into. -/
theorem reads_links {first tree : Tree} {links : List (Operator × Tree)}
    (h : Groups first links tree) (hlinks : ∀ link ∈ links, IsLink link) {base : List Context}
    (hbase : ∀ link ∈ links, ∀ e, reduce link.1.level base e = (base, e)) (done : List Tree)
    (indexable : Bool) :
    ∃ stack last indexable',
      readMarks ⟨done, some ⟨base, .value first indexable⟩⟩ (linkMarks links) =
        .ok ⟨done, some ⟨stack, .value last indexable'⟩⟩ ∧
      ∀ level, (∀ link ∈ links, level ≤ link.1.level) →
        reduce level stack last = reduce level base tree := by
  induction h generalizing base indexable with
  | single e => exact ⟨base, e, indexable, rfl, fun _ _ ↦ rfl⟩
  | @split first next left right op before after hbefore hafter _ _ ihleft ihright =>
    simp only [List.forall_mem_append, List.forall_mem_cons] at hlinks hbase
    obtain ⟨hlinksBefore, ⟨hop, hnext⟩, hlinksAfter⟩ := hlinks
    obtain ⟨hbaseBefore, hbaseOp, -⟩ := hbase
    obtain ⟨stack, last, indexable', hread, hclosed⟩ := ihleft hlinksBefore hbaseBefore indexable
    -- The operator closes everything before it, and stays open for everything behind it.
    have hreduce : reduce op.level stack last = (base, left) := by
      rw [hclosed, hbaseOp]
      intro link hlink
      rw [Operator.level_eq_rung hop, Operator.level_eq_rung (hlinksBefore link hlink).1]
      exact hbefore link hlink
    have hfeed := feed_operator hop done stack last indexable'
    rw [hreduce] at hfeed
    have hwaits : ∀ link ∈ after, ∀ e, reduce link.1.level (.operator op left :: base) e =
        (.operator op left :: base, e) := by
      intro link hlink e
      refine if_neg (Nat.not_le_of_lt ?_)
      rw [Operator.level_eq_rung hop, Operator.level_eq_rung (hlinksAfter link hlink).1]
      exact hafter link hlink
    obtain ⟨stack', last', indexable'', hread', hclosed'⟩ :=
      ihright hlinksAfter hwaits (!next.isCall)
    refine ⟨stack', last', indexable'', ?_, fun level hlevel ↦ ?_⟩
    · have hmarks : linkMarks (before ++ (op, next) :: after) =
          linkMarks before ++ .sign op.kind :: (next.marks ++ linkMarks after) := by
        simp [linkMarks]
      rw [hmarks, readMarks_append hread, readMarks_cons hfeed,
        readMarks_append (reads_bounded hnext _ _)]
      exact hread'
    · simp only [List.forall_mem_append, List.forall_mem_cons] at hlevel
      rw [hclosed' level hlevel.2.2]
      exact if_pos hlevel.2.1

/-- The end of the input closes at least what an operator closes. -/
theorem closeAll_reduce (level : Nat) (stack : List Context) (e : Tree) (t : Token) :
    State.closeAll t (reduce level stack e).1 (reduce level stack e).2 =
      State.closeAll t stack e := by
  induction stack generalizing e with
  | nil => rfl
  | cons context rest ih =>
    cases context with
    | operator op left =>
      rw [reduce]
      split_ifs
      · exact ih _
      · rfl
    | assign | assignCell | group | subscript | argument | elements | block | ifCondition | ifThen
    | ifElse | whileCondition | whileBody | functionBody => rfl

/-- A row of operands and operators is read as what it is grouped into. -/
theorem parse_of_groups (file : String) {first tree : Tree} {links : List (Operator × Tree)}
    (hfirst : first.Bounded) (hlinks : ∀ link ∈ links, IsLink link)
    (h : Groups first links tree) : parse file (operationText first links) = .ok [tree] := by
  have hbase : ∀ link ∈ links, ∀ e, reduce link.1.level [] e = ([], e) := fun _ _ _ ↦ rfl
  obtain ⟨stack, last, indexable, hread, hclosed⟩ :=
    reads_links h hlinks hbase [] (!first.isCall)
  refine parse_of_spells file (spells_operationText hfirst.normal hlinks)
    (List.forall_mem_append.mpr ⟨hfirst.normal.legible, legible_linkMarks hlinks⟩)
    (q := ⟨[], some ⟨stack, .value last indexable⟩⟩) ?_ fun t ↦ ?_
  · rw [readMarks_start (by simp [marks_ne_nil hfirst.normal]),
      readMarks_append (reads_bounded hfirst [] [])]
    exact hread
  · have hall := closeAll_reduce 0 stack last t
    rw [hclosed 0 fun _ _ ↦ Nat.zero_le _] at hall
    change (State.closeAll t stack last).map _ = _
    rw [← hall]
    rfl

/-- Assumes: the operators are of the twelve, and the operands are valid trees without negative
integers that are not open at their end. Written with the operators between them, and without
parentheses, they are read as a single tree, and it is the only one that they are grouped into. -/
theorem parse_operations (file : String) {first : Tree} {links : List (Operator × Tree)}
    (hfirst : first.Bounded) (hlinks : ∀ link ∈ links, IsLink link) :
    ∃ tree, parse file (operationText first links) = .ok [tree] ∧
      ∀ other, Groups first links other ↔ other = tree := by
  obtain ⟨tree, htree⟩ := exists_groups first links
  have hparse := parse_of_groups file hfirst hlinks htree
  refine ⟨tree, hparse, fun other ↦ ⟨fun hother ↦ ?_, fun heq ↦ heq ▸ htree⟩⟩
  have hsame := (parse_of_groups file hfirst hlinks hother).symm.trans hparse
  exact (List.cons.inj (Except.ok.inj hsame)).1

/-- Four levels, and two operators of one of them. -/
def mixedLinks : List (Operator × Tree) :=
  [(.subtract, .var "b"), (.multiply, .int 2), (.subtract, .call "f" (.var "c")),
    (.less, .access (.var "d") (.int 0)), (.or, .binary .add (.var "x") (.int 1))]

theorem parse_operations_mixed :
    operationText (.var "a") mixedLinks = "a - b * 2 - f(c) < d[0] || (x + 1)" ∧
      parse "p" "a - b * 2 - f(c) < d[0] || (x + 1)" = .ok [.binary .or (.binary .less
        (.binary .subtract (.binary .subtract (.var "a") (.binary .multiply (.var "b") (.int 2)))
          (.call "f" (.var "c"))) (.access (.var "d") (.int 0)))
        (.binary .add (.var "x") (.int 1))] := by
  have hfirst : Expr.Bounded (.var "a" : Tree) := ⟨(Expr.normal_var _).mpr (by decide), rfl⟩
  have hlinks : ∀ link ∈ mixedLinks, IsLink link := by
    have hnormal : ∀ link ∈ mixedLinks, link.2.Normal := by
      simp only [mixedLinks, List.forall_mem_cons, List.not_mem_nil, false_implies, implies_true,
        Expr.normal_var, Expr.normal_int, Expr.normal_call, Expr.normal_access, Expr.normal_binary]
      decide
    have hother : ∀ link ∈ mixedLinks, Operator.known.contains link.1 = true ∧
      link.2.isOpen = false := by decide
    exact fun link hlink ↦ ⟨(hother link hlink).1, hnormal link hlink, (hother link hlink).2⟩
  have htext : operationText (.var "a") mixedLinks = "a - b * 2 - f(c) < d[0] || (x + 1)" := rfl
  obtain ⟨tree, hparse, hgroups⟩ := parse_operations "p" hfirst hlinks
  rw [htext] at hparse
  have hproduct : Groups (.var "b") ([] ++ [(.multiply, .int 2)]) _ :=
    .split (by decide) (by decide) (.single _) (.single _)
  have hfirstMinus : Groups (.var "a") ([] ++ (.subtract, .var "b") :: [(.multiply, .int 2)]) _ :=
    .split (by decide) (by decide) (.single _) hproduct
  have hsecondMinus : Groups (.var "a") (mixedLinks.take 2 ++ [mixedLinks[2]]) _ :=
    .split (by decide) (by decide) hfirstMinus (.single _)
  have hless : Groups (.var "a") (mixedLinks.take 3 ++ [mixedLinks[3]]) _ :=
    .split (by decide) (by decide) hsecondMinus (.single _)
  have hor : Groups (.var "a") (mixedLinks.take 4 ++ [mixedLinks[4]]) _ :=
    .split (by decide) (by decide) hless (.single _)
  rw [← (hgroups _).mp hor] at hparse
  exact ⟨htext, hparse⟩

/-! ### Assignment signs -/

/-- Variables and array elements can be assigned to. -/
def isTarget : Tree → Bool
  | .var _ | .access _ _ => true
  | _ => false

/-- The assignment of `value` to a target. -/
def assignment? : (target value : Tree) → Option Tree
  | .var name, value => some (.assign name value)
  | .access base index, value => some (.assignCell base index value)
  | _, _ => none

/-- Expressions with an assignment sign behind each, as they are written. -/
def targetsText : List Tree → String
  | [] => ""
  | e :: rest => e.text ++ " = " ++ targetsText rest

theorem targetsText_append (first second : List Tree) :
    targetsText (first ++ second) = targetsText first ++ targetsText second := by
  induction first with
  | nil => simp [targetsText]
  | cons e rest ih => simp [targetsText, ih, String.append_assoc]

def targetsMarks (targets : List Tree) : List Mark :=
  targets.flatMap fun e ↦ e.marks ++ [.sign .assign]

theorem spells_targetsText {targets : List Tree} {value : Tree}
    (htargets : ∀ e ∈ targets, e.Normal) (hvalue : value.Normal) :
    Expr.Spells (targetsText targets ++ value.text).toList
      (targetsMarks targets ++ value.marks) := by
  induction targets with
  | nil => simpa [targetsText, targetsMarks] using hvalue.spells
  | cons e rest ih =>
    obtain ⟨he, hrest⟩ := List.forall_mem_cons.mp htargets
    have htext : (targetsText (e :: rest) ++ value.text).toList =
        e.text.toList ++ ' ' :: ((Mark.sign .assign).lexeme ++
          ' ' :: (targetsText rest ++ value.text).toList) := by
      simp [targetsText, Mark.lexeme, Token.Kind.spelling]
    have hmarks : targetsMarks (e :: rest) ++ value.marks =
        e.marks ++ ([.sign .assign] ++ (targetsMarks rest ++ value.marks)) := by
      simp [targetsMarks]
    rw [htext, hmarks]
    exact he.spells.cut rfl (.layout rfl ((Expr.Spells.mark rfl).cut rfl (.layout rfl (ih hrest))))

theorem legible_targetsMarks {targets : List Tree} {value : Tree}
    (htargets : ∀ e ∈ targets, e.Normal) (hvalue : value.Normal) :
    ∀ m ∈ targetsMarks targets ++ value.marks, m.Legible := by
  rw [List.forall_mem_append, targetsMarks, List.forall_mem_flatMap]
  refine ⟨fun e he ↦ ?_, hvalue.legible⟩
  rw [List.forall_mem_append, List.forall_mem_singleton]
  exact ⟨(htargets e he).legible, Mark.legible_sign (by decide)⟩

/-- A target before an assignment sign makes the context of an assignment to it. -/
theorem exists_context_of_isTarget {e : Tree} (h : isTarget e = true) :
    ∃ context, (∀ stack, awaitsOperand (context :: stack) = false) ∧
      (∀ t stack, assignTo t stack e = .ok (.shift ⟨context :: stack, .operand⟩)) ∧
      ∀ value, ∃ tree, context.plug? value = some tree ∧ assignment? e value = some tree := by
  cases e with
  | var name =>
    exact ⟨.assign name, fun _ ↦ rfl, fun _ _ ↦ rfl, fun _ ↦ ⟨_, rfl, rfl⟩⟩
  | access base index =>
    exact ⟨.assignCell base index, fun _ ↦ rfl, fun _ _ ↦ rfl, fun _ ↦ ⟨_, rfl, rfl⟩⟩
  | int | binary | assign | block | branch | loop | define | call | array | assignCell | missing =>
    contradiction

theorem assignTo_of_not_isTarget {e : Tree} (h : isTarget e = false) (t : Token)
    (stack : List Context) : assignTo t stack e = .error (.assignmentTarget t.span) := by
  cases e <;> first | rfl | contradiction

/-- Among expressions that are not all targets there is a first one that is none. -/
theorem exists_first_not_isTarget {es : List Tree} (h : ¬ ∀ e ∈ es, isTarget e = true) :
    ∃ before e after, es = before ++ e :: after ∧
      (∀ target ∈ before, isTarget target = true) ∧ isTarget e = false := by
  cases hfind : es.find? fun e ↦ !isTarget e with
  | none => exact absurd (by simpa using hfind) h
  | some e =>
    obtain ⟨he, before, after, rfl, hbefore⟩ := List.find?_eq_some_iff_append.mp hfind
    exact ⟨before, e, after, rfl, by simpa using hbefore, by simpa using he⟩

/-- The sign is rejected behind an operand that is no target. -/
theorem feed_assign_of_not_isTarget {e : Tree} (he : isTarget e = false) {t : Token}
    (ht : t.kind = .assign) {stack : List Context} (hstack : awaitsOperand stack = false)
    {done : List Tree} {indexable : Bool} :
    Progress.feed ⟨done, some ⟨stack, .value e indexable⟩⟩ t =
      .error (.assignmentTarget t.span) := by
  have hstate : State.feed ⟨stack, .value e indexable⟩ t = .error (.assignmentTarget t.span) := by
    simp only [State.feed, afterOperand, ht, reduce_of_not_awaitsOperand hstack]
    exact assignTo_of_not_isTarget he t stack
  rw [feed_some, hstate]
  rfl

/-- Behind targets a value is read that they are assigned. At the end of the input the assignments
are nested to the right. -/
theorem reads_targets {targets : List Tree} (h : ∀ e ∈ targets, e.Bounded ∧ isTarget e = true)
    (done : List Tree) {stack : List Context} (hstack : awaitsOperand stack = false) :
    ∃ inner, awaitsOperand inner = false ∧
      readMarks ⟨done, some ⟨stack, .operand⟩⟩ (targetsMarks targets) =
        .ok ⟨done, some ⟨inner, .operand⟩⟩ ∧
      ∀ value, ∃ tree, targets.foldrM assignment? value = some tree ∧
        ∀ t, State.closeAll t inner value = State.closeAll t stack tree := by
  induction targets generalizing stack with
  | nil => exact ⟨stack, hstack, rfl, fun value ↦ ⟨value, rfl, fun _ ↦ rfl⟩⟩
  | cons e rest ih =>
    obtain ⟨⟨hbounded, htarget⟩, hrest⟩ := List.forall_mem_cons.mp h
    obtain ⟨context, hcontext, hassign, hplug⟩ := exists_context_of_isTarget htarget
    obtain ⟨inner, hinner, hread, hclose⟩ := ih hrest (hcontext stack)
    refine ⟨inner, hinner, ?_, fun value ↦ ?_⟩
    · have hmarks : targetsMarks (e :: rest) = e.marks ++ .sign .assign :: targetsMarks rest := by
        simp [targetsMarks]
      rw [hmarks, readMarks_append (reads_bounded hbounded done stack),
        readMarks_cons (feed_assign hstack done (hassign _ _) _)]
      exact hread
    · obtain ⟨tree, htree, hclosed⟩ := hclose value
      obtain ⟨whole, hwhole, hsame⟩ := hplug tree
      refine ⟨whole, ?_, fun t ↦ ?_⟩
      · rw [List.foldrM_cons, htree]
        exact hsame
      · rw [hclosed, State.closeAll, hwhole]

/-- A row of targets and a value is read as one assignment. -/
theorem parse_of_targets (file : String) {targets : List Tree} {value : Tree}
    (htargets : ∀ e ∈ targets, e.Bounded ∧ isTarget e = true) (hvalue : value.Normal) :
    ∃ tree, targets.foldrM assignment? value = some tree ∧
      parse file (targetsText targets ++ value.text) = .ok [tree] := by
  have hstart : awaitsOperand [] = false := rfl
  obtain ⟨inner, hinner, hread, hclose⟩ := reads_targets htargets [] hstart
  obtain ⟨tree, htree, hclosed⟩ := hclose value
  have hnormal : ∀ e ∈ targets, e.Normal := fun e he ↦ (htargets e he).1.normal
  refine ⟨tree, htree, parse_of_spells file (spells_targetsText hnormal hvalue)
    (legible_targetsMarks hnormal hvalue) (q := ⟨[], some (behind inner value)⟩) ?_ fun t ↦ ?_⟩
  · rw [readMarks_start (by simp [marks_ne_nil hvalue]), readMarks_append hread]
    exact (leads_marks hvalue.valid [] inner fun _ ↦ hinner).reads hvalue.nonneg
  · change ((behind inner value).finish t).map _ = _
    rw [finish_behind, hclosed]
    rfl

/-- An assignment sign with blanks around it is a token by itself. -/
theorem drafts_assign (file : String) (before after : List Char) :
    Token.drafts ⟨file, 1, 1⟩ none (before ++ ' ' :: '=' :: ' ' :: after) =
      Token.drafts ⟨file, 1, 1⟩ none before ++
        ⟨Token.placeBehind file (before ++ [' ']), '=', []⟩ ::
        Token.drafts (Token.placeBehind file (before ++ [' '] ++ ['='])) none (' ' :: after) := by
  have hblank : ∀ c ∈ (' ' :: '=' :: ' ' :: after).head?, Token.isSeparator c = true := by
    rintro _ ⟨⟩
    rfl
  have halone : Token.Draft.joins ⟨Token.placeBehind file (before ++ [' ']), '=', []⟩ ' ' = false :=
    rfl
  rw [Token.drafts_append_of_head _ _ before hblank, Token.placeAfter_eq, Token.drafts_none_cons,
    ← Token.placeBehind_concat]
  exact congrArg _ ((Token.drafts_of_not_joins halone _ after).trans (by
    rw [← Token.placeBehind_concat]))

/-- Where a text in marks has such a sign, its tokens have the sign too, and its place. -/
theorem scan_assign (file : String) {source : String} {before after : List Char}
    {ms ns : List Mark} (hsource : source.toList = before ++ ' ' :: '=' :: ' ' :: after)
    (hbefore : Expr.Spells before ms) (hms : ∀ m ∈ ms, m.Legible)
    (hafter : Expr.Spells after ns) (hns : ∀ m ∈ ns, m.Legible) :
    ∃ ts us place, Token.scan file source = .ok (ts ++ ⟨.assign, "=", none,
        (Token.placeBehind file (before ++ [' '])).span⟩ :: us ++ [.endAt place]) ∧
      ts.map Token.key = (ms.map Mark.token).map Token.key := by
  obtain ⟨ts, hts, hkeys⟩ := exists_tokens_of_spells hbefore hms ⟨file, 1, 1⟩
  obtain ⟨us, hus, -⟩ := exists_tokens_of_spells (.layout (c := ' ') rfl hafter) hns
    (Token.placeBehind file (before ++ [' '] ++ ['=']))
  refine ⟨ts, us, Token.placeAfter ⟨file, 1, 1⟩ source.toList, ?_, hkeys⟩
  rw [Token.scan_eq, hsource, drafts_assign, List.mapM_append, List.mapM_cons, hts, hus]
  rfl

/-- Behind an expression that is no target the assignment sign is rejected, where it stands. -/
theorem parse_of_not_isTarget (file : String) {before after : List Tree} {e value : Tree}
    (hbefore : ∀ e ∈ before, e.Bounded ∧ isTarget e = true) (he : e.Bounded)
    (htarget : isTarget e = false) (hafter : ∀ e ∈ after, e.Normal) (hvalue : value.Normal) :
    parse file (targetsText (before ++ e :: after) ++ value.text) = .error (.assignmentTarget
      (Token.placeBehind file (targetsText before ++ e.text ++ " ").toList).span) := by
  have hnormal : ∀ e ∈ before, e.Normal := fun e he ↦ (hbefore e he).1.normal
  have htext : (targetsText (before ++ e :: after) ++ value.text).toList =
      (targetsText before ++ e.text).toList ++
        ' ' :: '=' :: ' ' :: (targetsText after ++ value.text).toList := by
    simp [targetsText_append, targetsText]
  obtain ⟨ts, us, place, hscan, hkeys⟩ := scan_assign file htext
    (spells_targetsText hnormal he.normal) (legible_targetsMarks hnormal he.normal)
    (spells_targetsText hafter hvalue) (legible_targetsMarks hafter hvalue)
  have hstart : awaitsOperand [] = false := rfl
  obtain ⟨inner, hinner, hread, -⟩ := reads_targets hbefore [] hstart
  have hmarks : readMarks .start (targetsMarks before ++ e.marks) =
      .ok ⟨[], some ⟨inner, .value e (!e.isCall)⟩⟩ := by
    rw [readMarks_start (by simp [marks_ne_nil he.normal]), readMarks_append hread]
    exact reads_bounded he [] inner
  have hplace : (targetsText before ++ e.text ++ " ").toList =
      (targetsText before ++ e.text).toList ++ [' '] := by simp
  rw [hplace, parse_of_scan hscan, List.foldlM_append, foldlM_feed_of_readMarks hkeys hmarks]
  change ((_ :: us).foldlM Progress.feed _).bind _ = _
  rw [List.foldlM_cons, feed_assign_of_not_isTarget htarget rfl hinner]
  rfl

/-- Assumes: the targets and the value are valid trees without negative integers, and the targets
are not open at their end. Written with assignment signs between them they are accepted if and only
if every target is a variable or an array element, and then they are read as one tree, the
assignments nested to the right. Otherwise they are rejected at the sign behind the first target
that is neither. -/
theorem parse_assignments (file : String) {targets : List Tree} {value : Tree}
    (htargets : ∀ e ∈ targets, e.Bounded) (hvalue : value.Normal) :
    ((∃ items, parse file (targetsText targets ++ value.text) = .ok items) ↔
      ∀ e ∈ targets, isTarget e = true) ∧
    ((∀ e ∈ targets, isTarget e = true) → ∃ tree, targets.foldrM assignment? value = some tree ∧
      parse file (targetsText targets ++ value.text) = .ok [tree]) ∧
    ((¬ ∀ e ∈ targets, isTarget e = true) → ∃ before e after, targets = before ++ e :: after ∧
      (∀ target ∈ before, isTarget target = true) ∧ isTarget e = false ∧
      parse file (targetsText targets ++ value.text) = .error (.assignmentTarget
        (Token.placeBehind file (targetsText before ++ e.text ++ " ").toList).span)) := by
  have haccepts : (∀ e ∈ targets, isTarget e = true) →
      ∃ tree, targets.foldrM assignment? value = some tree ∧
        parse file (targetsText targets ++ value.text) = .ok [tree] := fun hall ↦
    parse_of_targets file (fun e he ↦ ⟨htargets e he, hall e he⟩) hvalue
  have hrejects : (¬ ∀ e ∈ targets, isTarget e = true) →
      ∃ before e after, targets = before ++ e :: after ∧
        (∀ target ∈ before, isTarget target = true) ∧ isTarget e = false ∧
        parse file (targetsText targets ++ value.text) = .error (.assignmentTarget
          (Token.placeBehind file (targetsText before ++ e.text ++ " ").toList).span) := by
    intro hnot
    obtain ⟨before, e, after, rfl, hbefore, he⟩ := exists_first_not_isTarget hnot
    obtain ⟨hbounded, hrest⟩ := List.forall_mem_append.mp htargets
    obtain ⟨hself, hafter⟩ := List.forall_mem_cons.mp hrest
    exact ⟨before, e, after, rfl, hbefore, he, parse_of_not_isTarget file
      (fun target hmem ↦ ⟨hbounded target hmem, hbefore target hmem⟩) hself he
      (fun target hmem ↦ (hafter target hmem).normal) hvalue⟩
  refine ⟨⟨fun ⟨items, hitems⟩ ↦ ?_, fun hall ↦ ?_⟩, haccepts, hrejects⟩
  · by_contra hnot
    obtain ⟨_, _, _, -, -, -, hfault⟩ := hrejects hnot
    rw [hfault] at hitems
    contradiction
  · obtain ⟨tree, -, hparse⟩ := haccepts hall
    exact ⟨_, hparse⟩

/-- An element of an array, then a variable, and a value that is open at its end. -/
theorem parse_assignments_nested :
    parse "p" "a[(i + 1)] = x = while (y) z = 1" =
        .ok [.assignCell (.var "a") (.binary .add (.var "i") (.int 1))
          (.assign "x" (.loop (.var "y") (.assign "z" (.int 1))))] ∧
      parse "p" "x = f(0) = y = 1" = .error (.assignmentTarget ⟨⟨"p", 1, 10⟩, ⟨"p", 1, 10⟩⟩) := by
  have hvar : ∀ name, Token.isName name = true → Expr.Bounded (.var name : Tree) :=
    fun name h ↦ ⟨(Expr.normal_var name).mpr h, rfl⟩
  constructor
  · have hcell : Expr.Bounded (.access (.var "a") (.binary .add (.var "i") (.int 1)) : Tree) := by
      refine ⟨?_, rfl⟩
      simp only [Expr.normal_access, Expr.normal_var, Expr.normal_binary, Expr.normal_int]
      decide
    have hvalue : Expr.Normal (.loop (.var "y") (.assign "z" (.int 1)) : Tree) := by
      simp only [Expr.normal_loop, Expr.normal_var, Expr.normal_assign, Expr.normal_int]
      decide
    have htargets := List.forall_mem_cons.mpr
      ⟨hcell, List.forall_mem_singleton.mpr (hvar "x" (by decide))⟩
    obtain ⟨tree, htree, hparse⟩ := (parse_assignments "p" htargets hvalue).2.1 (by decide)
    cases htree
    exact hparse
  · have hcall : Expr.Bounded (.call "f" (.int 0) : Tree) := by
      refine ⟨?_, rfl⟩
      simp only [Expr.normal_call, Expr.normal_int]
      decide
    have hvalue : Expr.Normal (.int 1 : Tree) := (Expr.normal_int 1).mpr (by decide)
    have htargets := List.forall_mem_cons.mpr ⟨hvar "x" (by decide), List.forall_mem_cons.mpr
      ⟨hcall, List.forall_mem_singleton.mpr (hvar "y" (by decide))⟩⟩
    obtain ⟨before, e, after, hsplit, hbefore, he, hfault⟩ :=
      (parse_assignments "p" htargets hvalue).2.2 (by decide)
    -- The call is the first that is no target.
    rcases before with _ | ⟨first, _ | ⟨second, rest⟩⟩
    · cases hsplit
      contradiction
    · cases hsplit
      exact hfault
    · have hsecond : second = .call "f" (.int 0) := (List.cons.inj (List.cons.inj hsplit).2).1.symm
      have htarget := hbefore second (by simp)
      rw [hsecond] at htarget
      contradiction

end Parser

end ExprLang
