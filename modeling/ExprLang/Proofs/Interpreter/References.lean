import ExprLang.Proofs.Interpreter.Arrays
import ExprLang.Proofs.Interpreter.Sessions
import ExprLang.Proofs.Value.Equality
import Mathlib.Data.List.Nodup

/-!
What values refer to. The values that a machine holds are in its focus, in its waiting work, in the
scope that it works in and those that it will return to, and in its table of functions. A step makes
up no reference: an array that it refers to exists, and a function was there before or is the one
just defined (`refers_step`). The definitions of a session get sites of their own
(`numbered_marked`), so at every moment of a session all arrays referred to exist, and a site
belongs to one function only (`exists_knows_of_during`). Values that are equal for the language
therefore print alike (`equality_of_values`).
-/

set_option autoImplicit false

namespace ExprLang

/-! ### Definitions and their sites -/

namespace Expr

mutual

/-- The functions that code defines, those in the bodies of others included, in the order in which
they are written. -/
def functions : Code → List Function
  | int _ | var _ | missing => []
  | binary _ left right => left.functions ++ right.functions
  | assign _ value => value.functions
  | block items => functionsList items
  | branch condition onTrue onFalse =>
    condition.functions ++ onTrue.functions ++ functionsOption onFalse
  | loop condition body => condition.functions ++ body.functions
  | define site name parameter body => ⟨site, name, parameter, body⟩ :: body.functions
  | call _ argument => argument.functions
  | array elements => functionsList elements
  | access base index => base.functions ++ index.functions
  | assignCell base index value => base.functions ++ index.functions ++ value.functions

def functionsList : List Code → List Function
  | [] => []
  | e :: rest => e.functions ++ functionsList rest

def functionsOption : Option Code → List Function
  | none => []
  | some e => e.functions

end

theorem functionsList_eq (items : List Code) : functionsList items = items.flatMap functions := by
  induction items with
  | nil => rfl
  | cons e rest ih => rw [functionsList, ih, List.flatMap_cons]

variable {μ : Type}

/-- Some functions have the sites from `first` on, as far as the last site before `next`. -/
def Numbered (first : Nat) (fs : List Function) (next : Nat) : Prop :=
  first ≤ next ∧ fs.map Function.site = List.range' first (next - first)

theorem Numbered.nil (site : Nat) : Numbered site [] site := ⟨Nat.le_refl _, by simp⟩

theorem Numbered.cons {f : Function} {next : Nat} {fs : List Function}
    (h : Numbered (f.site + 1) fs next) : Numbered f.site (f :: fs) next := by
  obtain ⟨hle, hsites⟩ := h
  have hlength : next - f.site = next - (f.site + 1) + 1 := by omega
  refine ⟨Nat.le_of_succ_le hle, ?_⟩
  rw [List.map_cons, hsites, hlength, List.range'_succ]

theorem Numbered.append {first middle next : Nat} {fs gs : List Function}
    (hfs : Numbered first fs middle) (hgs : Numbered middle gs next) :
    Numbered first (fs ++ gs) next := by
  obtain ⟨hle, hsites⟩ := hfs
  obtain ⟨hle', hsites'⟩ := hgs
  refine ⟨Nat.le_trans hle hle', ?_⟩
  have hmiddle : middle = first + 1 * (middle - first) := by omega
  have hlength : next - first = (middle - first) + (next - middle) := by omega
  rw [List.map_append, hsites, hsites', hlength, ← List.range'_append, ← hmiddle]

theorem numbered_markedList {items : List (Expr μ)}
    (h : ∀ e ∈ items, ∀ site, Numbered site (e.marked site).1.functions (e.marked site).2)
    (site : Site) :
    Numbered site (functionsList (markedList site items).1) (markedList site items).2 := by
  induction items generalizing site with
  | nil => exact .nil site
  | cons e rest ih =>
    have hrest := ih (fun e he ↦ h e (List.mem_cons_of_mem _ he)) (e.marked site).2
    exact (h e List.mem_cons_self site).append hrest

/-- Marking numbers the functions in the order in which they are written. -/
theorem numbered_marked (e : Expr μ) (site : Site) :
    Numbered site (e.marked site).1.functions (e.marked site).2 := by
  induction e generalizing site with
  | int | var | missing => exact .nil site
  | assign _ _ hvalue => exact hvalue site
  | call _ _ hargument => exact hargument site
  | define _ name parameter body hbody =>
    let f : Function := ⟨site, name, parameter, (body.marked (site + 1)).1⟩
    exact Numbered.cons (f := f) (hbody (site + 1))
  | binary _ _ _ hleft hright => exact (hleft site).append (hright _)
  | loop _ _ hcondition hbody => exact (hcondition site).append (hbody _)
  | access _ _ hbase hindex => exact (hbase site).append (hindex _)
  | assignCell _ _ _ hbase hindex hvalue =>
    exact ((hbase site).append (hindex _)).append (hvalue _)
  | branch _ _ onFalse hcondition hTrue hFalse =>
    have hboth := (hcondition site).append (hTrue _)
    cases onFalse with
    | none => exact hboth.append (.nil _)
    | some other => exact hboth.append (hFalse other rfl _)
  | block items hitems => exact numbered_markedList hitems site
  | array elements helements => exact numbered_markedList helements site

end Expr

/-! ### The values that a machine holds -/

def Scope.values (s : Scope) : List Value :=
  s.frames.flatMap fun frame ↦ frame.entries.map Prod.snd

theorem Scope.mem_values_put {s : Scope} {name : String} {v w : Value}
    (h : w ∈ (s.put name v).values) : w = v ∨ w ∈ s.values := by
  obtain ⟨frame, hframe, hw⟩ := List.mem_flatMap.mp h
  obtain ⟨entry, hentry, rfl⟩ := List.mem_map.mp hw
  rcases List.mem_cons.mp hframe with rfl | hparent
  · rcases Table.mem_insertEntry hentry with rfl | hold
    · exact .inl rfl
    · exact .inr (List.mem_flatMap.mpr ⟨_, List.mem_cons_self, List.mem_map_of_mem hold⟩)
  · exact .inr (List.mem_flatMap.mpr ⟨frame, List.mem_cons_of_mem _ hparent, hw⟩)

theorem Scope.mem_values_of_get {s : Scope} {name : String} {v : Value}
    (h : s.get name = .ok v) : v ∈ s.values := by
  have hfind : s.find? name = some v := by
    unfold Scope.get at h
    split at h
    · rw [← Except.ok.inj h]
      assumption
    · contradiction
  obtain ⟨frame, hframe, hentry⟩ := List.exists_of_findSome?_eq_some hfind
  have hmem := (frame.mem_entries_iff name v).mpr hentry
  exact List.mem_flatMap.mpr ⟨frame, hframe, List.mem_map_of_mem (f := Prod.snd) hmem⟩

/-- The value is an array of which there are enough, a function that is known, or no reference. -/
def Value.Refers (arrays : Nat) (known : Function → Prop) : Value → Prop
  | array address => address < arrays
  | function f => known f
  | int _ | bit _ | builtin _ | void => True

theorem Value.Refers.mono {arrays more : Nat} {known wider : Function → Prop} {v : Value}
    (h : v.Refers arrays known) (hmore : arrays ≤ more) (hwider : ∀ f, known f → wider f) :
    v.Refers more wider := by
  cases v with
  | array address => exact Nat.lt_of_lt_of_le h hmore
  | function f => exact hwider f h
  | _ => trivial

theorem Operator.refers_of_applyInt {op : Operator} {l r : Int64} {v : Value} (arrays : Nat)
    (known : Function → Prop) (hv : op.applyInt l r = .ok v) : v.Refers arrays known := by
  cases op with
  | divide =>
    simp only [applyInt] at hv
    split_ifs at hv
    cases hv
    trivial
  | equal | notEqual | and | or | other => contradiction
  | _ =>
    cases hv
    trivial

/-- Operators give numbers and bits, which refer to nothing. -/
theorem Operator.refers_of_apply {op : Operator} {h : Heap} {left right v : Value} (arrays : Nat)
    (known : Function → Prop) (hv : op.apply h left right = .ok v) : v.Refers arrays known := by
  have hbits : ∀ {operation : String} {f : Bool → Bool → Bool},
      ((left.asBit operation).bind fun l ↦ (right.asBit operation).bind fun r ↦
        Except.ok (Value.bit (f l r))) = .ok v → v.Refers arrays known := by
    intro operation f hf
    cases hl : left.asBit operation <;> rw [hl] at hf
    · contradiction
    cases hr : right.asBit operation <;> rw [hr] at hf
    · contradiction
    cases hf
    trivial
  have hints : ∀ {operation : String}, ((left.asInt operation).bind fun l ↦
      (right.asInt operation).bind fun r ↦ op.applyInt l r) = .ok v → v.Refers arrays known := by
    intro operation hf
    cases hl : left.asInt operation <;> rw [hl] at hf
    · contradiction
    cases hr : right.asInt operation <;> rw [hr] at hf
    · contradiction
    exact refers_of_applyInt arrays known hf
  cases op with
  | equal | notEqual =>
    cases hv
    trivial
  | and | or => exact hbits hv
  | _ => exact hints hv

namespace Interpreter

/-! ### The values that a machine holds -/

def Focus.values : Focus → List Value
  | value v => [v]
  | eval _ | fault _ => []

def Work.values : Work → List Value
  | operate _ v | test _ _ v => [v]
  | enter f => [.function f]
  | leave caller => caller.values
  | _ => []

def State.values (s : State) : List Value :=
  s.scope.values ++ s.functions.entries.map fun entry ↦ .function entry.2

def Machine.values (m : Machine) : List Value :=
  m.focus.values ++ m.work.flatMap Work.values ++ m.state.values

theorem Machine.mem_values_of_focus {m : Machine} {v : Value} (h : m.focus = .value v) :
    v ∈ m.values := by
  simp [Machine.values, h, Focus.values]

theorem Machine.mem_values_of_work {m : Machine} {w : Work} {v : Value} (hw : w ∈ m.work)
    (hv : v ∈ w.values) : v ∈ m.values :=
  List.mem_append_left _ (List.mem_append_right _ (List.mem_flatMap.mpr ⟨w, hw, hv⟩))

def State.Refers (known : Function → Prop) (s : State) : Prop :=
  ∀ v ∈ s.values, v.Refers s.heap.arrays.size known

def Work.Refer (arrays : Nat) (known : Function → Prop) (work : List Work) : Prop :=
  ∀ w ∈ work, ∀ v ∈ w.values, v.Refers arrays known

/-- All arrays that the machine refers to exist, and all functions are known. -/
structure Machine.Refers (known : Function → Prop) (m : Machine) : Prop where
  focus : ∀ v ∈ m.focus.values, v.Refers m.state.heap.arrays.size known
  work : Work.Refer m.state.heap.arrays.size known m.work
  state : m.state.Refers known

/-- Every function that the piece defines is known. -/
def Piece.Known (known : Function → Prop) : Piece → Prop
  | .code e | .body e => ∀ f ∈ e.functions, known f
  | .operator _ => True

theorem closed_known (known : Function → Prop) : Closed (Piece.Known known) := by
  refine ⟨fun e he ↦ ?_, fun e he ↦ he⟩
  change ∀ f ∈ e.functions, known f at he
  cases e with
  | int | var | missing => exact List.forall_mem_nil _
  | block | array =>
    simp only [Expr.functions, Expr.functionsList_eq, List.mem_flatMap] at he
    simp only [Expr.pieces, List.forall_mem_map]
    exact fun x hx f hf ↦ he f ⟨x, hx, hf⟩
  | branch _ _ onFalse =>
    cases onFalse <;>
      simpa [Expr.pieces, Piece.Known, Expr.functions, Expr.functionsOption, or_imp, forall_and,
        and_assoc] using he
  | define => exact List.forall_mem_singleton.mpr (List.forall_mem_cons.mp he).2
  | assign | call | binary | access | loop | assignCell =>
    simpa [Expr.pieces, Piece.Known, Expr.functions, or_imp, forall_and, and_assoc] using he

section Refers

variable {known : Function → Prop} {s t : State}

theorem State.Refers.mono (h : s.Refers known) (hvalues : t.values ⊆ s.values)
    (hsize : s.heap.arrays.size ≤ t.heap.arrays.size) : t.Refers known := by
  intro v hv
  exact (h v (hvalues hv)).mono hsize fun _ hf ↦ hf

theorem State.Refers.withHeap (h : s.Refers known) {heap : Heap}
    (hmore : s.heap.arrays.size ≤ heap.arrays.size) : State.Refers known { s with heap := heap } :=
  h.mono (List.Subset.refl _) hmore

theorem State.Refers.put (h : s.Refers known) {scope : Scope}
    (hscope : scope.values ⊆ s.scope.values) (name : String)
    {v : Value} (hv : v.Refers s.heap.arrays.size known) :
    State.Refers known { s with scope := scope.put name v } := by
  intro w hw
  rcases List.mem_append.mp hw with hbound | htable
  · rcases Scope.mem_values_put hbound with rfl | hold
    · exact hv
    · exact h w (List.mem_append_left _ (hscope hold))
  · exact h w (List.mem_append_right _ htable)

theorem State.Refers.define (h : s.Refers known) {f : Function} (hf : known f) :
    (s.define f).Refers known := by
  intro w hw
  rcases List.mem_append.mp hw with hbound | htable
  · rcases Scope.mem_values_put hbound with rfl | hold
    · exact hf
    · exact h w (List.mem_append_left _ hold)
  · obtain ⟨entry, hentry, rfl⟩ := List.mem_map.mp htable
    rcases Table.mem_insertEntry hentry with rfl | hold
    · exact hf
    · exact h _ (List.mem_append_right _ (List.mem_map_of_mem hold))

/-- A function in the table is known. -/
theorem State.Refers.known_of_get? (h : s.Refers known) {name : String} {f : Function}
    (hf : s.functions.get? name = some f) : known f := by
  have hentry := (s.functions.mem_entries_iff name f).mpr hf
  exact h (.function f) (List.mem_append_right _ (List.mem_map_of_mem hentry))

theorem State.Refers.leaveCall (h : s.Refers known) {caller : Scope}
    (hcaller : ∀ u ∈ caller.values, u.Refers s.heap.arrays.size known) :
    (s.leaveCall caller).Refers known := by
  intro u hu
  rcases List.mem_append.mp hu with hbound | htable
  · exact hcaller u hbound
  · exact h u (List.mem_append_right _ htable)

theorem Work.Refer.mono {arrays more : Nat} {work : List Work} (h : Work.Refer arrays known work)
    (hmore : arrays ≤ more) : Work.Refer more known work :=
  fun w hw v hv ↦ (h w hw v hv).mono hmore fun _ hf ↦ hf

theorem Work.Refer.cons {arrays : Nat} {work : List Work} (h : Work.Refer arrays known work)
    (w : Work) (hw : ∀ v ∈ w.values, v.Refers arrays known) :
    Work.Refer arrays known (w :: work) :=
  List.forall_mem_cons.mpr ⟨hw, h⟩

/-- What the action gives, binds or defines is an array that exists, a function that is known, or no
reference. -/
def Action.Refers (arrays : Nat) (known : Function → Prop) : Action → Prop
  | result r => ∀ v, r = .ok v → v.Refers arrays known
  | bind _ v => v.Refers arrays known
  | define f => known f
  | _ => True

section Tasks

variable {task : Task} {e : Code} {w : Work} {a : Action}

/-- What waits for the rest of a task holds no value but the one that was given. -/
theorem Splits.values (h : Splits task e w) : w.values ⊆ task.focus.values := by
  cases h <;> simp [Work.values, Task.focus, Focus.values]

/-- An action is about the values that its task has, and about the function that it defines. -/
theorem Settles.refers {arrays : Nat} (h : Settles task a)
    (hfocus : ∀ v ∈ task.focus.values, v.Refers arrays known)
    (hwork : Work.Refer arrays known task.work)
    (hcode : ∀ e, task.focus = .eval e → Piece.Known known (.code e)) : a.Refers arrays known := by
  cases h with
  | bind v name => exact hfocus v List.mem_cons_self
  | define site name parameter body => exact hcode _ rfl _ List.mem_cons_self
  | endBlock v =>
    rintro _ ⟨⟩
    exact hfocus v List.mem_cons_self
  | endLoop v condition body last =>
    rintro _ ⟨⟩
    exact hwork _ List.mem_cons_self last List.mem_cons_self
  | int | builtin | emptyBlock | noElse =>
    rintro _ ⟨⟩
    trivial
  | missing | mistyped => exact fun _ hv ↦ by cases hv
  | _ => trivial

end Tasks

namespace Machine

variable {work : List Work}

theorem Refers.result (ht : t.Refers known) (hwork : Work.Refer t.heap.arrays.size known work)
    {r : Except Fault Value} (hr : ∀ v, r = .ok v → v.Refers t.heap.arrays.size known) :
    Refers known ⟨ofResult r, work, t⟩ := by
  refine ⟨?_, hwork, ht⟩
  cases r with
  | ok v => exact List.forall_mem_singleton.mpr (hr v rfl)
  | error f => exact List.forall_mem_nil _

theorem Refers.value (ht : t.Refers known) (hwork : Work.Refer t.heap.arrays.size known work)
    {v : Value} (hv : v.Refers t.heap.arrays.size known) : Refers known ⟨.value v, work, t⟩ :=
  ⟨List.forall_mem_singleton.mpr hv, hwork, ht⟩

theorem Refers.fault (ht : t.Refers known) (hwork : Work.Refer t.heap.arrays.size known work)
    (f : Fault) : Refers known ⟨.fault f, work, t⟩ :=
  ⟨List.forall_mem_nil _, hwork, ht⟩

theorem Refers.eval (ht : t.Refers known) (hwork : Work.Refer t.heap.arrays.size known work)
    (e : Code) : Refers known ⟨.eval e, work, t⟩ :=
  ⟨List.forall_mem_nil _, hwork, ht⟩

/-- A new array exists, and everything that existed still does. -/
theorem Refers.allocate (hwork : Work.Refer s.heap.arrays.size known work) (hs : s.Refers known)
    (cells : Array Int64) :
    Refers known ⟨.value (.array s.heap.arrays.size), work,
      { s with heap := (s.heap.allocate cells).2 }⟩ := by
  have hsize : (s.heap.allocate cells).2.arrays.size = s.heap.arrays.size + 1 :=
    Array.size_push cells
  have hmore : s.heap.arrays.size ≤ (s.heap.allocate cells).2.arrays.size := by omega
  refine .value (hs.withHeap hmore) (hwork.mono hmore) ?_
  show s.heap.arrays.size < (s.heap.allocate cells).2.arrays.size
  omega

theorem Refers.beginCheck (condition body : Code) {last : Value}
    (hwork : Work.Refer s.heap.arrays.size known work) (hs : s.Refers known)
    (hlast : last.Refers s.heap.arrays.size known) :
    Refers known (beginCheck condition body last work s) := by
  have hheap := heap_countIteration s
  have hvalues : s.countIteration.2.values = s.values := by
    simp only [State.countIteration]
    split_ifs <;> rfl
  have hcounted : s.countIteration.2.Refers known :=
    hs.mono (hvalues ▸ List.Subset.refl _) (Nat.le_of_eq (congrArg (·.arrays.size) hheap.symm))
  rw [← hheap] at hwork hlast
  rcases beginCheck_cases condition body last work s with hcheck | hrefuse
  · rw [hcheck]
    exact .eval hcounted
      (hwork.cons (.test condition body last) (List.forall_mem_singleton.mpr hlast)) _
  · rw [hrefuse]
    exact .fault hcounted hwork _

theorem refers_act {a : Action} (ha : a.Refers s.heap.arrays.size known)
    (hwork : Work.Refer s.heap.arrays.size known work) (hs : s.Refers known) :
    Refers known ⟨ofResult (a.act s).1, work, (a.act s).2⟩ := by
  cases a with
  | result r => exact .result hs hwork ha
  | lookUp name =>
    refine .result hs hwork fun v hv ↦ ?_
    exact hs v (List.mem_append_left _ (Scope.mem_values_of_get hv))
  | bind name v => exact .value (hs.put (List.Subset.refl _) name ha) hwork ha
  | define f =>
    have hdefined : (Action.act s (.define f)).2.Refers known := hs.define ha
    exact Refers.value (v := .function f) hdefined hwork ha
  | operate op left right =>
    exact .result hs hwork fun u hu ↦ Operator.refers_of_apply _ known hu
  | builtin b v =>
    obtain ⟨r, output, hact, hr⟩ := s.applyBuiltin_cases b v
    have hprinted : State.Refers known { s with output := output } := hs
    rw [Action.act, hact]
    rcases hr with ⟨n, rfl⟩ | rfl | ⟨f, -, rfl⟩
    · exact Refers.value (v := .int n) hprinted hwork trivial
    · exact Refers.value (v := .void) hprinted hwork trivial
    · exact .fault hprinted hwork f
  | allocate cells => exact .allocate hwork hs cells
  | read address index =>
    refine .result hs hwork fun u hu ↦ ?_
    rw [Action.act] at hu
    cases hread : s.heap.read address index with
    | error f =>
      rw [hread] at hu
      contradiction
    | ok n =>
      rw [hread] at hu
      cases hu
      trivial
  | write address index value =>
    rw [Action.act]
    cases s.heap.position address index with
    | error f => exact .fault hs hwork f
    | ok cell =>
      have hmore := (Heap.Grows.setCell s.heap address cell value).size_le
      exact .value (hs.withHeap hmore) (hwork.mono hmore) trivial

/-- What a task leads to makes up no reference. -/
theorem refers_of_issues {task : Task} {i : Instruction} (h : Issues task i)
    (hcode : (task.machine work s).Keeps (Piece.Known known))
    (hrefers : (task.machine work s).Refers known) : (i.perform work s).Refers known := by
  obtain ⟨hfocus, hall, hs⟩ := hrefers
  obtain ⟨htask, hwork⟩ := List.forall_mem_append.mp hall
  change Work.Refer s.heap.arrays.size known work at hwork
  change s.Refers known at hs
  cases h with
  | settle ha => exact refers_act (ha.refers hfocus htask hcode.focus) hwork hs
  | push hsplit =>
    exact .eval hs (hwork.cons _ fun u hu ↦ hfocus u (hsplit.values hu)) _
  | onTrue | onFalse => exact .eval hs hwork _
  | @find name hname argument =>
    rw [Instruction.perform]
    cases hf : s.functions.get? name with
    | none => exact .fault hs hwork _
    | some f =>
      have hknown := hs.known_of_get? hf
      exact .eval hs (hwork.cons (.enter f) (List.forall_mem_singleton.mpr hknown)) argument
  | enter v f =>
    rw [Instruction.perform]
    split_ifs
    · exact .fault hs hwork _
    · have hv : v.Refers s.heap.arrays.size known := hfocus v List.mem_cons_self
      have hscope : s.scope.child.values ⊆ s.scope.values := List.Subset.refl _
      have hcaller : ∀ u ∈ (Work.leave s.scope).values, u.Refers s.heap.arrays.size known :=
        fun u hu ↦ hs u (List.mem_append_left _ hu)
      have hinside : (s.enterCall f v).Refers known := hs.put hscope f.parameter hv
      exact .eval hinside (hwork.cons (.leave s.scope) hcaller) f.body
  | leave v caller =>
    exact .value (hs.leaveCall (htask _ List.mem_cons_self)) hwork (hfocus v List.mem_cons_self)
  | enterLoop condition body => exact .beginCheck condition body hwork hs trivial
  | turn v condition body last =>
    exact .eval hs (hwork.cons _ (List.forall_mem_nil _)) body
  | check v condition body =>
    exact .beginCheck condition body hwork hs (hfocus v List.mem_cons_self)

/-- A step makes up no reference. -/
theorem refers_step {m m' : Machine} (hcode : m.Keeps (Piece.Known known)) (h : m.Refers known)
    (hstep : m.step = .inl m') : m'.Refers known := by
  cases transition_of_step hstep with
  | perform task work s => exact refers_of_issues task.issues hcode h
  | pass f w work s =>
    obtain ⟨-, hall, hs⟩ := h
    obtain ⟨hw, hwork⟩ := List.forall_mem_cons.mp hall
    cases w with
    | leave caller => exact .fault (State.Refers.leaveCall hs hw) hwork f
    | _ => exact .fault hs hwork f

end Machine

end Refers

/-! ### Sessions -/

/-- A site belongs to one of the functions at most, and comes before `next`. -/
structure Sited (next : Nat) (known : Function → Prop) : Prop where
  lt : ∀ f, known f → f.site < next
  inj : ∀ f g, known f → known g → f.site = g.site → f = g

/-- Functions that are numbered from the next site on have sites of their own. -/
theorem Sited.append {first next : Nat} {known : Function → Prop} {fs : List Function}
    (h : Sited first known) (hfs : Expr.Numbered first fs next) :
    Sited next fun f ↦ known f ∨ f ∈ fs := by
  obtain ⟨hle, hsites⟩ := hfs
  have hnew : ∀ f ∈ fs, first ≤ f.site ∧ f.site < next := by
    intro f hf
    have hsite : f.site ∈ List.range' first (next - first) := hsites ▸ List.mem_map_of_mem hf
    rwa [List.mem_range'_1, Nat.add_sub_cancel' hle] at hsite
  have hnodup : (fs.map Function.site).Nodup := hsites ▸ List.nodup_range'
  refine ⟨?_, ?_⟩
  · rintro f (hold | hf)
    · exact Nat.lt_of_lt_of_le (h.lt f hold) hle
    · exact (hnew f hf).2
  · rintro f g (hold | hf) (hold' | hg) hsite
    · exact h.inj f g hold hold' hsite
    · exact absurd (hsite ▸ h.lt f hold) (Nat.not_lt.mpr (hnew g hg).1)
    · exact absurd (hsite ▸ h.lt g hold') (Nat.not_lt.mpr (hnew f hf).1)
    · exact List.inj_on_of_nodup_map hnodup hf hg hsite

/-- All code and all values are about functions that are known. -/
structure Machine.Knows (known : Function → Prop) (m : Machine) : Prop where
  keeps : m.Keeps (Piece.Known known)
  refers : m.Refers known

/-- The arrays that the state refers to exist, and the functions that it can come to have sites of
their own, all of which come before the next one. -/
def State.Coherent (s : State) : Prop :=
  ∃ known, Sited s.nextSite known ∧ s.Keeps (Piece.Known known) ∧ s.Refers known

theorem coherent_fresh (limits : Limits) (output : Output) (journal : Log.Journal) :
    (State.fresh limits output journal).Coherent :=
  ⟨fun _ ↦ False, ⟨nofun, nofun⟩, nofun, nofun⟩

theorem State.Coherent.reset {s : State} (h : s.Coherent) : s.reset.Coherent := by
  obtain ⟨known, hsited, -, -⟩ := h
  exact ⟨known, hsited, nofun, nofun⟩

/-- The definitions in code that is about to be evaluated get sites of their own. -/
theorem State.Coherent.starting {s : State} (h : s.Coherent) (e : Tree) :
    ∃ known, Sited (s.starting e).state.nextSite known ∧ (s.starting e).Knows known := by
  obtain ⟨known, hsited, hkeeps, hrefers⟩ := h
  refine ⟨_, hsited.append (Expr.numbered_marked e s.nextSite), ?_, ?_⟩
  · refine .eval (fun f hf ↦ .inr hf) (List.forall_mem_nil _) fun name f hf ↦ ?_
    exact fun g hg ↦ .inl (hkeeps name f hf g hg)
  · refine .eval (fun v hv ↦ ?_) (List.forall_mem_nil _) _
    exact (hrefers v hv).mono (Nat.le_refl _) fun _ hf ↦ .inl hf

theorem Machine.knows_step {known : Function → Prop} {m m' : Machine} (h : m.Knows known)
    (hstep : m.step = .inl m') : m'.Knows known :=
  ⟨keeps_step (closed_known known) h.keeps hstep, refers_step h.keeps h.refers hstep⟩

/-- An evaluation that ends leaves a coherent state. -/
theorem State.Coherent.evaluate {s t : State} {e : Tree} {fuel : Nat} {r : Except Fault Value}
    (h : s.Coherent) (hrun : s.evaluate fuel e = some (r, t)) : t.Coherent := by
  obtain ⟨known, hsited, hknows⟩ := h.starting e
  have hend := Machine.run_invariant (fun _ _ hm hstep ↦ Machine.knows_step hm hstep) hrun hknows
  have hsite : t.nextSite = (s.starting e).state.nextSite := Machine.nextSite_of_run hrun
  exact ⟨known, hsite ▸ hsited, hend.keeps.state, hend.refers.state⟩

theorem State.Coherent.executeFrom {s t : State} {program : List Tree} {fuel : Nat} {last : Value}
    {r : Except Fault Value} (h : s.Coherent)
    (hrun : s.executeFrom fuel last program = some (r, t)) : t.Coherent := by
  induction program generalizing s last with
  | nil =>
    cases hrun
    exact h
  | cons e rest ih =>
    rw [State.executeFrom] at hrun
    cases hfirst : s.evaluate fuel e with
    | none => simp [hfirst] at hrun
    | some first =>
      obtain ⟨r', t'⟩ := first
      rw [hfirst] at hrun
      cases r' with
      | error f =>
        cases hrun
        exact h.evaluate hfirst
      | ok v => exact ih (h.evaluate hfirst) hrun

theorem coherent_of_reached {s : State} (h : Reached s) : s.Coherent := by
  induction h with
  | fresh limits output journal => exact coherent_fresh limits output journal
  | @ran s t fuel file source r _ hrun ih =>
    have hread : (s.afterReading file source).Coherent := ih
    rw [runSource_eq] at hrun
    cases hparse : Parser.parse file source with
    | error f =>
      rw [hparse] at hrun
      cases hrun
      exact hread
    | ok program =>
      rw [hparse] at hrun
      exact hread.executeFrom hrun
  | reset _ ih => exact ih.reset

/-- At every moment of a program, the functions that the machine can come to have sites of their
own, and all values are about them and about arrays that exist. -/
theorem exists_knows_of_during {s : State} {program : List Tree} {m : Machine}
    (h : During s program m) (hs : s.Coherent) :
    ∃ known, (∃ next, Sited next known) ∧ m.Knows known := by
  induction h with
  | start s e rest =>
    obtain ⟨known, hsited, hknows⟩ := hs.starting e
    exact ⟨known, ⟨_, hsited⟩, hknows⟩
  | step _ hstep ih =>
    obtain ⟨known, hsited, hknows⟩ := ih hs
    exact ⟨known, hsited, Machine.knows_step hknows hstep⟩
  | later hfirst _ ih => exact ih (hs.evaluate hfirst)

theorem Machine.Refers.values {known : Function → Prop} {m : Machine} (h : m.Refers known) :
    ∀ v ∈ m.values, v.Refers m.state.heap.arrays.size known := by
  intro v hv
  rcases List.mem_append.mp hv with hwaiting | hstate
  · rcases List.mem_append.mp hwaiting with hfocus | hwork
    · exact h.focus v hfocus
    · obtain ⟨w, hw, hvalue⟩ := List.mem_flatMap.mp hwork
      exact h.work w hw v hvalue
  · exact h.state v hstate

/-- Of the values that a machine holds at any moment of a program, functions with the same site are
the same function. -/
theorem function_eq_of_during {s : State} {program : List Tree} {m : Machine}
    (h : During s program m) (hs : s.Coherent) {f g : Function} (hf : .function f ∈ m.values)
    (hg : .function g ∈ m.values) (hsite : f.site = g.site) : f = g := by
  obtain ⟨known, ⟨next, hsited⟩, hknows⟩ := exists_knows_of_during h hs
  exact hsited.inj f g (hknows.refers.values _ hf) (hknows.refers.values _ hg) hsite

/-! ### Equality of values -/

/-- With the arrays as they are in a heap, `==` is an equivalence which holds of all values that are
the same, and `!=` is its negation. Equal values print alike, given that two functions with the same
site are the same function, which is so for all values that an interpreter holds at any moment of
a program, whatever it has run before. Of values that are no functions, those that print alike are
equal. -/
theorem equality_of_values (h : Heap) :
    Equivalence (fun v w : Value ↦ v.equal h w = true) ∧
    (∀ v w : Value, v.same h w = true → v.equal h w = true) ∧
    (∀ v w, Operator.equal.apply h v w = .ok (.bit (v.equal h w)) ∧
      Operator.notEqual.apply h v w = .ok (.bit (!v.equal h w))) ∧
    (∀ v w : Value, (∀ f g, v = .function f → w = .function g → f.site = g.site → f = g) →
      v.equal h w = true → v.text h = w.text h) ∧
    (∀ s file source program m, Reached s → Parser.parse file source = .ok program →
      During (s.afterReading file source) program m →
      ∀ v ∈ m.values, ∀ w ∈ m.values, v.equal h w = true → v.text h = w.text h) ∧
    ∀ v w : Value, v.kind ≠ .function → w.kind ≠ .function →
      (v.equal h w = true ↔ v.text h = w.text h) := by
  refine ⟨Value.equal_equivalence h, fun _ _ ↦ Value.equal_of_same, fun _ _ ↦ ⟨rfl, rfl⟩,
    fun _ _ ↦ Value.text_eq_of_equal, ?_, fun _ _ ↦ Value.equal_iff_text_eq h⟩
  intro s file source program m hs _ hduring v hv w hw
  have hcoherent := coherent_of_reached hs
  have hread : (s.afterReading file source).Coherent := hcoherent
  refine Value.text_eq_of_equal ?_
  rintro f g rfl rfl hsite
  exact function_eq_of_during hduring hread hv hw hsite

/-- A heap with two arrays of the same cells. -/
def twins : Heap := ⟨#[#[1, -2], #[1, -2]]⟩

/-- The two arrays, the number one and the bit that counts as one, and the two
operands of `f == f` in a program that has defined the function. -/
theorem equality_of_values_operands :
    ((Value.array 0).equal twins (.array 1) = true ∧
      (Value.array 0).text twins = (Value.array 1).text twins ∧
      (Value.int 1).text twins = (Value.bit true).text twins) ∧
    ∃ m f g, During (unused.afterReading "p" "func f(n) n; f == f")
        [.define () "f" "n" (.var "n"), .binary .equal (.var "f") (.var "f")] m ∧
      m.focus = .value (.function f) ∧ m.work = [.operate .equal (.function g)] ∧
      (Value.function f).equal m.state.heap (.function g) = true ∧
      (Value.function f).text m.state.heap = (Value.function g).text m.state.heap := by
  constructor
  · obtain ⟨⟨-, hsymm, -⟩, hsame, -, htext, -, hiff⟩ := equality_of_values twins
    have hcells : (Value.array 0).equal twins (.array 1) = true := hsymm (hsame _ _ (by decide))
    have hnumbers := (hiff (.int 1) (.bit true) (by decide) (by decide)).mp (by decide)
    exact ⟨hcells, htext _ _ nofun hcells, hnumbers⟩
  · have hparse : Parser.parse "p" "func f(n) n; f == f" =
        .ok [.define () "f" "n" (.var "n"), .binary .equal (.var "f") (.var "f")] := rfl
    have hfirst : (unused.afterReading "p" "func f(n) n; f == f").evaluate 3
        (.define () "f" "n" (.var "n")) = some (.ok _, _) := rfl
    have hstart := During.later hfirst (.start _ (.binary .equal (.var "f") (.var "f")) [])
    have hduring := (((hstart.step rfl).step rfl).step rfl).step rfl
    have hreached : Reached unused := .fresh .standard .unlimited .silent
    obtain ⟨-, -, -, -, hheld, -⟩ := equality_of_values .empty
    exact ⟨_, _, _, hduring, rfl, rfl, rfl, hheld _ "p" _ _ _ hreached hparse hduring
      _ (Machine.mem_values_of_focus rfl)
      _ (Machine.mem_values_of_work List.mem_cons_self List.mem_cons_self) rfl⟩

end Interpreter

end ExprLang
