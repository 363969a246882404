import ExprLang.Proofs.Expr.Moves
import ExprLang.Proofs.Expr.RoundTrip
import ExprLang.Proofs.Token.Scanned

/-!
What the parser makes is normal: every name in it can be written, every operator is one of the
twelve, no integer is negative, and no expression is missing (`normal_of_parse`). Each move of a
sound token keeps that true of everything a program being read holds (`Progress.Normal.advance`).
So what is written of a program that was read is a normal form of its source
(`program_normal_form`).
-/

set_option autoImplicit false

namespace ExprLang

/-- A valid tree without negative integers. -/
structure Expr.Normal {μ : Type} (e : Expr μ) : Prop where
  valid : e.isValid = true
  nonneg : ∀ value ∈ e.literals, 0 ≤ value.toInt

namespace Expr

variable {μ : Type}

theorem normal_iff (e : Expr μ) :
    e.Normal ↔ e.isValid = true ∧ ∀ value ∈ e.literals, 0 ≤ value.toInt :=
  ⟨fun h ↦ ⟨h.valid, h.nonneg⟩, fun h ↦ ⟨h.1, h.2⟩⟩

@[simp] theorem normal_int (value : Int64) : (int value : Expr μ).Normal ↔ 0 ≤ value.toInt := by
  simp [normal_iff, isValid, literals]

@[simp] theorem normal_var (name : String) :
    (var name : Expr μ).Normal ↔ Token.isName name = true := by
  simp [normal_iff, isValid, literals]

@[simp] theorem normal_binary (op : Operator) (left right : Expr μ) :
    (binary op left right).Normal ↔
      Operator.known.contains op = true ∧ left.Normal ∧ right.Normal := by
  simp only [normal_iff, isValid, literals, Bool.and_eq_true, List.forall_mem_append]
  tauto

@[simp] theorem normal_assign (name : String) (value : Expr μ) :
    (assign name value).Normal ↔ Token.isName name = true ∧ value.Normal := by
  simp only [normal_iff, isValid, literals, Bool.and_eq_true]
  tauto

@[simp] theorem normal_loop (condition body : Expr μ) :
    (loop condition body).Normal ↔ condition.Normal ∧ body.Normal := by
  simp only [normal_iff, isValid, literals, Bool.and_eq_true, List.forall_mem_append]
  tauto

@[simp] theorem normal_define (mark : μ) (name parameter : String) (body : Expr μ) :
    (define mark name parameter body).Normal ↔
      Token.isName name = true ∧ Token.isName parameter = true ∧ body.Normal := by
  simp only [normal_iff, isValid, literals, Bool.and_eq_true]
  tauto

@[simp] theorem normal_call (name : String) (argument : Expr μ) :
    (call name argument).Normal ↔ Token.isName name = true ∧ argument.Normal := by
  simp only [normal_iff, isValid, literals, Bool.and_eq_true]
  tauto

@[simp] theorem normal_access (base index : Expr μ) :
    (access base index).Normal ↔ base.Normal ∧ index.Normal := by
  simp only [normal_iff, isValid, literals, Bool.and_eq_true, List.forall_mem_append]
  tauto

@[simp] theorem normal_assignCell (base index value : Expr μ) :
    (assignCell base index value).Normal ↔ base.Normal ∧ index.Normal ∧ value.Normal := by
  simp only [normal_iff, isValid, literals, Bool.and_eq_true, List.forall_mem_append]
  tauto

/-- A list is valid and without negative integers if every tree in it is normal. -/
theorem normal_list_iff (items : List (Expr μ)) :
    (isValidList items = true ∧ ∀ value ∈ literalsList items, 0 ≤ value.toInt) ↔
      ∀ e ∈ items, e.Normal := by
  rw [isValidList_eq, literalsList_eq, List.all_eq_true, List.forall_mem_flatMap]
  constructor
  · intro h e he
    exact ⟨h.1 e he, h.2 e he⟩
  · intro h
    exact ⟨fun e he ↦ (h e he).valid, fun e he ↦ (h e he).nonneg⟩

@[simp] theorem normal_block (items : List (Expr μ)) :
    (block items).Normal ↔ ∀ e ∈ items, e.Normal := by
  rw [normal_iff, isValid, literals]
  exact normal_list_iff items

@[simp] theorem normal_array (elements : List (Expr μ)) :
    (array elements).Normal ↔ ∀ e ∈ elements, e.Normal := by
  rw [normal_iff, isValid, literals]
  exact normal_list_iff elements

@[simp] theorem normal_branch (condition onTrue : Expr μ) (onFalse : Option (Expr μ)) :
    (branch condition onTrue onFalse).Normal ↔
      condition.Normal ∧ onTrue.Normal ∧ ∀ e ∈ onFalse, e.Normal := by
  cases onFalse with
  | none =>
    simp [normal_iff, isValid, isValidOption, literals, literalsOption, or_imp, forall_and]
    tauto
  | some other =>
    simp [normal_iff, isValid, isValidOption, literals, literalsOption, or_imp, forall_and]
    tauto

end Expr

/-- An operator that a token stands for is one of the twelve, and is written as that token. -/
theorem Operator.of_ofKind? {k : Token.Kind} {op : Operator} (h : Operator.ofKind? k = some op) :
    Operator.known.contains op = true ∧ op.kind = k := by
  unfold Operator.ofKind? at h
  split at h <;> cases h <;> exact ⟨rfl, rfl⟩

theorem Token.literal_of_int? {t : Token} {n : Int64} (h : t.int? = some n) :
    t.kind = .int ∧ t.literal = some (.int n) := by
  unfold Token.int? at h
  split at h
  · cases h
    exact ⟨‹_›, ‹_›⟩
  · contradiction

theorem Token.literal_of_ident? {t : Token} {name : String} (h : t.ident? = some name) :
    t.kind = .ident ∧ t.literal = some (.ident name) := by
  unfold Token.ident? at h
  split at h
  · cases h
    exact ⟨‹_›, ‹_›⟩
  · contradiction

theorem Token.Sound.zero_le_of_int? {t : Token} (ht : t.Sound) {n : Int64}
    (h : t.int? = some n) : 0 ≤ n.toInt := by
  obtain ⟨hkind, hliteral⟩ := Token.literal_of_int? h
  obtain ⟨m, hm, hnonneg⟩ := ht.int hkind
  rw [hliteral] at hm
  cases hm
  exact hnonneg

theorem Token.Sound.exists_ident? {t : Token} (ht : t.Sound) (hkind : t.kind = .ident) :
    ∃ name, t.ident? = some name := by
  obtain ⟨name, hliteral, -⟩ := ht.ident hkind
  exact ⟨name, by simp [Token.ident?, hkind, hliteral]⟩

theorem Token.Sound.isName_of_ident? {t : Token} (ht : t.Sound) {name : String}
    (h : t.ident? = some name) : Token.isName name = true := by
  obtain ⟨hkind, hliteral⟩ := Token.literal_of_ident? h
  obtain ⟨other, hother, hname⟩ := ht.ident hkind
  rw [hliteral] at hother
  cases hother
  exact hname

namespace Parser

def Context.Normal : Context → Prop
  | operator op left => Operator.known.contains op = true ∧ left.Normal
  | assign name | argument name => Token.isName name = true
  | assignCell base index => base.Normal ∧ index.Normal
  | group | ifCondition | whileCondition => True
  | subscript base => base.Normal
  | elements done | block done => ∀ e ∈ done, e.Normal
  | ifThen condition | whileBody condition => condition.Normal
  | ifElse condition onTrue => condition.Normal ∧ onTrue.Normal
  | functionBody name parameter => Token.isName name = true ∧ Token.isName parameter = true

def Header.Normal : Header → Prop
  | ifOpen | whileOpen | functionName => True
  | functionOpen name | functionParameter name => ∀ n ∈ name, Token.isName n = true
  | functionClose name parameter =>
    (∀ n ∈ name, Token.isName n = true) ∧ ∀ p ∈ parameter, Token.isName p = true

def Focus.Normal : Focus → Prop
  | operand | element | item => True
  | header h => h.Normal
  | value e _ => e.Normal

/-- All that the state holds is normal, and right after an opening bracket no element was read. -/
structure State.Normal (s : State) : Prop where
  stack : ∀ context ∈ s.stack, context.Normal
  focus : s.focus.Normal
  element : s.focus = .element → ∃ rest, s.stack = .elements [] :: rest

def Step.Normal : Step → Prop
  | shift s => s.Normal
  | done e => e.Normal

structure Progress.Normal (p : Progress) : Prop where
  done : ∀ e ∈ p.done, e.Normal
  current : ∀ s ∈ p.current, s.Normal

/-! ### Every move keeps what is held normal -/

theorem plug_normal {context : Context} {e whole : Tree} (h : context.plug? e = some whole)
    (hcontext : context.Normal) (he : e.Normal) : whole.Normal := by
  cases context with
  | operator op left =>
    cases h
    exact (Expr.normal_binary _ _ _).mpr ⟨hcontext.1, hcontext.2, he⟩
  | assign name =>
    cases h
    exact (Expr.normal_assign _ _).mpr ⟨hcontext, he⟩
  | assignCell base index =>
    cases h
    exact (Expr.normal_assignCell _ _ _).mpr ⟨hcontext.1, hcontext.2, he⟩
  | ifThen condition =>
    cases h
    exact (Expr.normal_branch _ _ _).mpr ⟨hcontext, he, nofun⟩
  | ifElse condition onTrue =>
    cases h
    exact (Expr.normal_branch _ _ _).mpr ⟨hcontext.1, hcontext.2, by simpa using he⟩
  | whileBody condition =>
    cases h
    exact (Expr.normal_loop _ _).mpr ⟨hcontext, he⟩
  | functionBody name parameter =>
    cases h
    exact (Expr.normal_define _ _ _ _).mpr ⟨hcontext.1, hcontext.2, he⟩
  | group | subscript | argument | elements | block | ifCondition | whileCondition =>
    contradiction

theorem plugs_normal {stack rest : List Context} {e whole : Tree} (h : Plugs stack e rest whole)
    (hstack : ∀ context ∈ stack, context.Normal) (he : e.Normal) :
    (∀ context ∈ rest, context.Normal) ∧ whole.Normal := by
  induction h with
  | refl => exact ⟨hstack, he⟩
  | plug hplug _ ih =>
    obtain ⟨hcontext, hrest⟩ := List.forall_mem_cons.mp hstack
    exact ih hrest (plug_normal hplug hcontext he)

/-- A context that is put on the stack where an operand may start. -/
theorem State.Normal.push {context : Context} {stack : List Context} {focus : Focus}
    (hcontext : context.Normal) (hstack : ∀ context ∈ stack, context.Normal)
    (hfocus : focus.Normal) (helement : focus ≠ .element) :
    State.Normal ⟨context :: stack, focus⟩ :=
  ⟨List.forall_mem_cons.mpr ⟨hcontext, hstack⟩, hfocus, fun h ↦ absurd h helement⟩

theorem State.Normal.value {stack : List Context} {e : Tree} {indexable : Bool}
    (hstack : ∀ context ∈ stack, context.Normal) (he : e.Normal) :
    State.Normal ⟨stack, .value e indexable⟩ :=
  ⟨hstack, he, nofun⟩

theorem normal_reverse {items : List Tree} (h : ∀ e ∈ items, e.Normal) :
    ∀ e ∈ items.reverse, e.Normal :=
  fun e he ↦ h e (List.mem_reverse.mp he)

theorem opens_normal {t : Token} {stack : List Context} {s : State} (h : Opens t stack s)
    (ht : t.Sound) (hstack : ∀ context ∈ stack, context.Normal) : s.Normal := by
  cases h with
  | array =>
    exact ⟨List.forall_mem_cons.mpr ⟨List.forall_mem_nil _, hstack⟩, trivial, fun _ ↦ ⟨_, rfl⟩⟩
  | function | loop | branch => exact ⟨hstack, trivial, nofun⟩
  | block => exact .push (List.forall_mem_nil _) hstack trivial nofun
  | int _ hn => exact .value hstack ((Expr.normal_int _).mpr (ht.zero_le_of_int? hn))
  | var _ hname => exact .value hstack ((Expr.normal_var _).mpr (ht.isName_of_ident? hname))
  | group => exact .push trivial hstack trivial nofun

theorem passes_normal {t : Token} {stack : List Context} {header : Header} {s : State}
    (h : Passes t stack header s) (ht : t.Sound) (hstack : ∀ context ∈ stack, context.Normal)
    (hheader : header.Normal) : s.Normal := by
  cases h with
  | ifOpen | whileOpen => exact .push trivial hstack trivial nofun
  | functionName => exact ⟨hstack, fun _ hname ↦ ht.isName_of_ident? hname, nofun⟩
  | functionOpen => exact ⟨hstack, hheader, nofun⟩
  | functionParameter =>
    exact ⟨hstack, ⟨hheader, fun _ hparameter ↦ ht.isName_of_ident? hparameter⟩, nofun⟩
  | functionClose _ name parameter =>
    have hnames : Context.Normal (.functionBody name parameter) := ⟨hheader.1 _ rfl, hheader.2 _ rfl⟩
    exact .push hnames hstack trivial nofun

theorem takes_normal {t : Token} {stack : List Context} {e : Tree} {step : Step}
    (h : Takes t stack e step) (ht : t.Sound) (hstack : ∀ context ∈ stack, context.Normal)
    (he : e.Normal) : step.Normal := by
  -- The tokens that extend the operand leave the stack as it is.
  cases h with
  | done => exact he
  | index => exact State.Normal.push he hstack trivial nofun
  | argument | assign =>
    exact State.Normal.push ((Expr.normal_var _).mp he) hstack trivial nofun
  | assignCell => exact State.Normal.push ((Expr.normal_access _ _).mp he) hstack trivial nofun
  | operator hop =>
    exact State.Normal.push ⟨(Operator.of_ofKind? hop).1, he⟩ hstack trivial nofun
  -- The others are taken by the innermost context.
  | orElse =>
    obtain ⟨hcondition, hrest⟩ := List.forall_mem_cons.mp hstack
    exact State.Normal.push ⟨hcondition, he⟩ hrest trivial nofun
  | separate | comma =>
    obtain ⟨hdone, hrest⟩ := List.forall_mem_cons.mp hstack
    exact State.Normal.push (List.forall_mem_cons.mpr ⟨he, hdone⟩) hrest trivial nofun
  | endBlock =>
    obtain ⟨hdone, hrest⟩ := List.forall_mem_cons.mp hstack
    have hall := normal_reverse (List.forall_mem_cons.mpr ⟨he, hdone⟩)
    exact State.Normal.value hrest ((Expr.normal_block _).mpr hall)
  | endArray =>
    obtain ⟨hdone, hrest⟩ := List.forall_mem_cons.mp hstack
    have hall := normal_reverse (List.forall_mem_cons.mpr ⟨he, hdone⟩)
    exact State.Normal.value hrest ((Expr.normal_array _).mpr hall)
  | juxtapose hopens =>
    obtain ⟨hdone, hrest⟩ := List.forall_mem_cons.mp hstack
    exact opens_normal hopens ht
      (List.forall_mem_cons.mpr ⟨List.forall_mem_cons.mpr ⟨he, hdone⟩, hrest⟩)
  | endGroup => exact State.Normal.value (List.forall_mem_cons.mp hstack).2 he
  | endIndex =>
    obtain ⟨hbase, hrest⟩ := List.forall_mem_cons.mp hstack
    exact State.Normal.value hrest ((Expr.normal_access _ _).mpr ⟨hbase, he⟩)
  | endArgument =>
    obtain ⟨hname, hrest⟩ := List.forall_mem_cons.mp hstack
    exact State.Normal.value hrest ((Expr.normal_call _ _).mpr ⟨hname, he⟩)
  | endIf | endWhile =>
    exact State.Normal.push he (List.forall_mem_cons.mp hstack).2 trivial nofun

theorem moves_normal {t : Token} {s : State} {step : Step} (h : Moves t s step) (ht : t.Sound)
    (hs : s.Normal) : step.Normal := by
  cases h with
  | opens _ hopens _ => exact opens_normal hopens ht hs.stack
  | emptyArray =>
    exact State.Normal.value (List.forall_mem_cons.mp hs.stack).2
      ((Expr.normal_array _).mpr (List.forall_mem_nil _))
  | endBlock =>
    obtain ⟨hdone, hrest⟩ := List.forall_mem_cons.mp hs.stack
    exact State.Normal.value hrest ((Expr.normal_block _).mpr (normal_reverse hdone))
  | passes hpasses => exact passes_normal hpasses ht hs.stack hs.focus
  | takes _ hplugs htakes =>
    obtain ⟨hrest, hwhole⟩ := plugs_normal hplugs hs.stack hs.focus
    exact takes_normal htakes ht hrest hwhole

/-- A sound token keeps all that is held normal. -/
theorem Progress.Normal.advance {t : Token} {p q : Progress} (h : Advances t p q) (ht : t.Sound)
    (hp : p.Normal) : q.Normal := by
  cases h with
  | begins done hopens =>
    have hs := opens_normal hopens ht (List.forall_mem_nil _)
    exact ⟨hp.done, by simpa using hs⟩
  | shifts done hmoves =>
    have hs : State.Normal _ := moves_normal hmoves ht (hp.current _ rfl)
    exact ⟨hp.done, by simpa using hs⟩
  | ends done hmoves =>
    have he : Expr.Normal _ := moves_normal hmoves ht (hp.current _ rfl)
    exact ⟨List.forall_mem_cons.mpr ⟨he, hp.done⟩, nofun⟩
  | restarts done hmoves hopens =>
    have he : Expr.Normal _ := moves_normal hmoves ht (hp.current _ rfl)
    have hs := opens_normal hopens ht (List.forall_mem_nil _)
    exact ⟨List.forall_mem_cons.mpr ⟨he, hp.done⟩, by simpa using hs⟩

theorem Progress.Normal.finish {p : Progress} {t : Token} {items : List Tree} (hp : p.Normal)
    (h : p.finish t = .ok items) : ∀ e ∈ items, e.Normal := by
  rcases cases_of_finish h with ⟨-, rfl⟩ | ⟨stack, e, indexable, whole, hcurrent, hplugs, rfl⟩
  · exact normal_reverse hp.done
  · have hs := hp.current _ hcurrent
    obtain ⟨-, hwhole⟩ := plugs_normal hplugs hs.stack hs.focus
    exact normal_reverse (List.forall_mem_cons.mpr ⟨hwhole, hp.done⟩)

/-- A program that sound tokens make is normal. -/
theorem normal_of_foldlM {ts : List Token} (hts : ∀ t ∈ ts, t.Sound) {p : Progress}
    (h : ts.foldlM Progress.feed .start = .ok p) : p.Normal := by
  have hrun := foldlM_feed_invariant
    (P := fun before p ↦ (∀ t ∈ before, t.Sound) → p.Normal)
    (fun before t p q hadvance hp hsound ↦ by
      rw [List.forall_mem_append] at hsound
      exact .advance hadvance (hsound.2 t List.mem_cons_self) (hp hsound.1))
    h [] fun _ ↦ ⟨List.forall_mem_nil _, nofun⟩
  exact hrun hts

/-- A source that is accepted was scanned into sound tokens, which were all read. -/
theorem exists_of_parse {file source : String} {items : List Tree}
    (h : parse file source = .ok items) :
    ∃ ts place p, Token.scan file source = .ok (ts ++ [.endAt place]) ∧ (∀ t ∈ ts, t.Sound) ∧
      ts.foldlM Progress.feed .start = .ok p ∧ p.finish (.endAt place) = .ok items := by
  cases hscan : Token.scan file source with
  | error fault => simp [parse, hscan, Except.bind] at h
  | ok tokens =>
    obtain ⟨ts, place, rfl, hts, -⟩ := Token.exists_of_scan hscan
    rw [parse_of_scan hscan] at h
    cases hread : ts.foldlM Progress.feed .start with
    | error fault => simp [hread, Except.bind] at h
    | ok p =>
      rw [hread] at h
      exact ⟨ts, place, p, rfl, fun t ht ↦ (hts t ht).1, hread, h⟩

/-- What the parser makes of a source is normal. -/
theorem normal_of_parse {file source : String} {items : List Tree}
    (h : parse file source = .ok items) : ∀ e ∈ items, e.Normal := by
  obtain ⟨ts, place, p, -, hts, hread, hfinish⟩ := exists_of_parse h
  exact (normal_of_foldlM hts hread).finish hfinish

/-- What was read from a source and written is read back. -/
theorem parse_program_of_parse {file source : String} {items : List Tree}
    (h : parse file source = .ok items) (other : String) :
    parse other (Expr.program items) = .ok items := by
  have hnormal := normal_of_parse h
  exact parse_program_of_nonNegative other (fun e he ↦ (hnormal e he).valid)
    fun e he ↦ (hnormal e he).nonneg

/-- Assumes: the source is accepted. Every tree that it is read as is valid, and the integers in it
are in range and not negative. What is written of the trees is a normal form of the source: it is
read back as the same trees and written again as the same text, and another source has the same
normal form if and only if it is read as the same trees. -/
theorem program_normal_form {file source : String} {items : List Tree}
    (h : parse file source = .ok items) :
    (∀ e ∈ items, e.isValid = true ∧
      ∀ value ∈ e.literals, 0 ≤ value.toInt ∧ value.toInt < 0x8000000000000000) ∧
    (∀ other, parse other (Expr.program items) = .ok items ∧
      ∀ again, parse other (Expr.program items) = .ok again →
        Expr.program again = Expr.program items) ∧
    ∀ other text others, parse other text = .ok others →
      (Expr.program others = Expr.program items ↔ others = items) := by
  have hback := parse_program_of_parse h
  refine ⟨fun e he ↦ ?_, fun other ↦ ⟨hback other, fun again hagain ↦ ?_⟩, ?_⟩
  · obtain ⟨hvalid, hnonneg⟩ := normal_of_parse h e he
    exact ⟨hvalid, fun value hvalue ↦ ⟨hnonneg value hvalue, value.toInt_lt⟩⟩
  · rw [hback other] at hagain
    cases hagain
    rfl
  · intro other text others hothers
    refine ⟨fun hsame ↦ ?_, fun hsame ↦ congrArg Expr.program hsame⟩
    have hread := parse_program_of_parse hothers other
    rw [hsame, hback other] at hread
    exact (Except.ok.inj hread).symm

/-- Leading zeros, parentheses that group nothing, the other spelling of a minus and the missing
semicolon are gone from the normal form. -/
theorem program_normal_form_grouped :
    ∃ items, parse "p" "x = ((007) ! y)[z] w" = .ok items ∧
      Expr.program items = "x = (7 - y)[z];\nw" ∧ parse "q" "x = (7 - y)[z];\nw" = .ok items := by
  have hparse : parse "p" "x = ((007) ! y)[z] w" = .ok [.assign "x"
      (.access (.binary .subtract (.int 7) (.var "y")) (.var "z")), .var "w"] := rfl
  obtain ⟨-, hback, -⟩ := program_normal_form hparse
  exact ⟨_, hparse, rfl, (hback "q").1⟩

end Parser

end ExprLang
