import ExprLang.Proofs.Interpreter.References

/-!
Pure expressions. Literals, variables, operators, blocks, branches, array literals, array accesses
and lengths only add arrays to the heap, and they always end. Two evaluations of such an expression
in the same scope may find different heaps, with the arrays of the scope in both. What they come to
are twins: the same value, or arrays with the same cells (`endAlike_of_isPure`). No operation tells
twins apart, so an expression that is evaluated again gives an equal value or the same fault
(`pure_repeats`).
-/

set_option autoImplicit false

namespace ExprLang

/-! ### Pure trees -/

namespace Expr

variable {μ : Type}

mutual

/-- The tree consists of literals, variables, operators, blocks, branches, array literals, array
accesses and calls of `length`. -/
def isPure : Expr μ → Bool
  | int _ | var _ => true
  | binary _ left right => left.isPure && right.isPure
  | block items => isPureList items
  | branch condition onTrue onFalse =>
    condition.isPure && onTrue.isPure && isPureOption onFalse
  | call name argument => name = Builtin.length.name && argument.isPure
  | array elements => isPureList elements
  | access base index => base.isPure && index.isPure
  | assign .. | loop .. | define .. | assignCell .. | missing => false

def isPureList : List (Expr μ) → Bool
  | [] => true
  | e :: rest => e.isPure && isPureList rest

def isPureOption : Option (Expr μ) → Bool
  | none => true
  | some e => e.isPure

end

theorem isPureList_eq (items : List (Expr μ)) : isPureList items = items.all isPure := by
  induction items with
  | nil => rfl
  | cons e rest ih => rw [isPureList, ih, List.all_cons]

/-- Marking numbers nothing in the tree, and gives a pure one. -/
def KeptByMarking (e : Expr μ) : Prop :=
  ∀ site, (e.marked site).1.isPure = true ∧ (e.marked site).2 = site

theorem marked_of_isPureList {items : List (Expr μ)} (h : ∀ e ∈ items, e.KeptByMarking)
    (site : Site) :
    isPureList (markedList site items).1 = true ∧ (markedList site items).2 = site := by
  induction items with
  | nil => exact ⟨rfl, rfl⟩
  | cons e rest ih =>
    obtain ⟨hpure, hsite⟩ := h e List.mem_cons_self site
    have hrest := ih fun e he ↦ h e (List.mem_cons_of_mem _ he)
    simpa [markedList, isPureList, hpure, hsite] using hrest

theorem keptByMarking_of_isPure {e : Expr μ} (he : e.isPure = true) : e.KeptByMarking := by
  intro site
  induction e using inductionOn generalizing site with
  | int | var => exact ⟨rfl, rfl⟩
  | assign | loop | define | assignCell | missing => contradiction
  | binary _ _ _ hleft hright =>
    simp only [isPure, Bool.and_eq_true] at he
    simp [marked, isPure, hleft he.1 site, hright he.2 site]
  | access _ _ hbase hindex =>
    simp only [isPure, Bool.and_eq_true] at he
    simp [marked, isPure, hbase he.1 site, hindex he.2 site]
  | call _ _ hargument =>
    simp only [isPure, Bool.and_eq_true] at he
    simpa [marked, isPure, hargument he.2 site] using he.1
  | branch _ _ onFalse hcondition hTrue hFalse =>
    simp only [isPure, Bool.and_eq_true] at he
    cases onFalse with
    | none =>
      simp [marked, markedOption, isPure, isPureOption, hcondition he.1.1 site, hTrue he.1.2 site]
    | some other =>
      simp [marked, markedOption, isPure, isPureOption, hcondition he.1.1 site, hTrue he.1.2 site,
        hFalse other rfl he.2 site]
  | block items hitems =>
    rw [isPure, isPureList_eq, List.all_eq_true] at he
    exact marked_of_isPureList (fun e hmem ↦ hitems e hmem (he e hmem)) site
  | array elements helements =>
    rw [isPure, isPureList_eq, List.all_eq_true] at he
    exact marked_of_isPureList (fun e hmem ↦ helements e hmem (he e hmem)) site

end Expr

/-! ### Twins -/

/-- Two values, each with a heap of its own: the same one, or arrays with the same cells. -/
inductive Value.Twins (h k : Heap) : Value → Value → Prop
  | same {v : Value} (hv : v.kind ≠ .array) : Twins h k v v
  | array {a b : Nat} (ha : a < h.arrays.size) (hb : b < k.arrays.size)
      (hcells : h.cells a = k.cells b) : Twins h k (.array a) (.array b)

namespace Value.Twins

variable {h k h' k' : Heap} {v w : Value}

theorem grow (hvw : Twins h k v w) (hh : h.Grows id h') (hk : k.Grows id k') :
    Twins h' k' v w := by
  cases hvw with
  | same hv => exact .same hv
  | array ha hb hcells =>
    refine .array (Nat.lt_of_lt_of_le ha hh.size_le) (Nat.lt_of_lt_of_le hb hk.size_le) ?_
    exact (hh.cells _ ha).trans (hcells.trans (hk.cells _ hb).symm)

/-- A value whose array is there is its own twin, whatever arrays have been added. -/
theorem of_grows {l : Heap} (hv : ∀ address, v = .array address → address < l.arrays.size)
    (hh : l.Grows id h) (hk : l.Grows id k) : Twins h k v v := by
  by_cases harray : ∃ address, v = .array address
  · obtain ⟨address, rfl⟩ := harray
    have haddress := hv address rfl
    exact (Twins.array haddress haddress rfl).grow hh hk
  · refine .same fun hkind ↦ harray ?_
    cases v with
    | array address => exact ⟨address, rfl⟩
    | _ => contradiction

theorem look_eq (hvw : Twins h k v w) : v.look h = w.look k := by
  cases hvw with
  | @same v _ => cases v <;> first | rfl | contradiction
  | array _ _ hcells => exact congrArg (fun cells ↦ Look.cells cells.toList) hcells

theorem asInt_eq (hvw : Twins h k v w) (operation : String) :
    v.asInt operation = w.asInt operation := by
  cases hvw <;> rfl

theorem asBit_eq (hvw : Twins h k v w) (operation : String) :
    v.asBit operation = w.asBit operation := by
  cases hvw <;> rfl

end Value.Twins

/-- The same fault, or values that `==` finds equal. -/
def EqualResults (h : Heap) : Except Fault Value → Except Fault Value → Prop
  | .ok v, .ok w => Operator.equal.apply h v w = .ok (.bit true)
  | .error f, .error g => f = g
  | _, _ => False

/-- The same fault, or values that are twins. -/
inductive ResultTwins (h k : Heap) : Except Fault Value → Except Fault Value → Prop
  | error (f : Fault) : ResultTwins h k (.error f) (.error f)
  | ok {v w : Value} (hvw : v.Twins h k w) : ResultTwins h k (.ok v) (.ok w)

namespace ResultTwins

variable {h k : Heap}

theorem of_plain {r : Except Fault Value} (hr : ∀ v, r = .ok v → v.kind ≠ .array) :
    ResultTwins h k r r := by
  cases r with
  | error f => exact .error f
  | ok v => exact .ok (.same (hr v rfl))

/-- No operator tells twins apart. -/
theorem apply (op : Operator) {v v' w w' : Value} (hleft : v.Twins h k v')
    (hright : w.Twins h k w') : ResultTwins h k (op.apply h v w) (op.apply k v' w') := by
  have hequal : v.equal h w = v'.equal k w' := by
    rw [Bool.eq_iff_iff, Value.equal_iff_look_eq, Value.equal_iff_look_eq, hleft.look_eq,
      hright.look_eq]
  have hresult : op.apply h v w = op.apply k v' w' := by
    cases op <;>
      simp only [Operator.apply, hequal, hleft.asBit_eq, hright.asBit_eq, hleft.asInt_eq,
        hright.asInt_eq]
  rw [← hresult]
  refine .of_plain fun u hu hkind ↦ ?_
  have hrefers := Operator.refers_of_apply 0 (fun _ ↦ True) hu
  cases u with
  | array address => exact Nat.not_lt_zero address hrefers
  | _ => contradiction

/-- Twins are equal in the second heap, if it has all that the first one has. -/
theorem equal {r r' : Except Fault Value} (hr : ResultTwins h k r r') (hk : h.Grows id k) :
    EqualResults k r r' := by
  cases hr with
  | error f => rfl
  | @ok v w hvw =>
    have hlook := (hvw.grow hk (.refl k)).look_eq
    have hequal : v.equal k w = true := (v.equal_iff_look_eq k w).mpr hlook
    exact congrArg (fun b ↦ Except.ok (Value.bit b)) hequal

/-- A cell of twin arrays is read alike. -/
theorem read {a b : Nat} (hcells : h.cells a = k.cells b) (i : Int64) :
    ResultTwins h k ((h.read a i).map .int) ((k.read b i).map .int) := by
  have hread : h.read a i = k.read b i := by
    simp only [Heap.read, Heap.position, Heap.outOfBounds, hcells]
  rw [hread]
  refine .of_plain fun u hu ↦ ?_
  cases hn : k.read b i with
  | error f => simp [hn, Except.map] at hu
  | ok n =>
    rw [hn] at hu
    cases hu
    simp [Value.kind]

end ResultTwins

namespace Interpreter

/-! ### Evaluations of pure code -/

/-- All arrays that are bound to a name exist. -/
def State.BindsExisting (s : State) : Prop :=
  ∀ name address, s.scope.get name = .ok (.array address) → address < s.heap.arrays.size

theorem State.Refers.bindsExisting {known : Function → Prop} {s : State} (h : s.Refers known) :
    s.BindsExisting :=
  fun _ _ hget ↦ h _ (List.mem_append_left _ (Scope.mem_values_of_get hget))

namespace Machine

/-- A fault passes work that does not wait for the end of a call. -/
theorem ends_fault_iff {f : Fault} {w : Work} (hw : w.isLeave = false) {t : State} {o : Outcome} :
    Ends ⟨.fault f, [w], t⟩ o ↔ o = (.error f, t) := by
  have hunwind : unwind t w = t := by cases w <;> first | rfl | contradiction
  rw [ends_step rfl, hunwind]
  exact ends_result (.error f) t o

/-- Both machines end. They add arrays only, leave all else as it is in `s`, and come to twins. -/
def EndAlike (s : State) (m m' : Machine) : Prop :=
  ∃ r r' h k, m.Ends (r, { s with heap := h }) ∧ m'.Ends (r', { s with heap := k }) ∧
    m.state.heap.Grows id h ∧ m'.state.heap.Grows id k ∧ ResultTwins h k r r'

namespace EndAlike

variable {s : State} {h k : Heap} {m m' n n' : Machine}

theorem result {r r' : Except Fault Value} (hr : ResultTwins h k r r') :
    EndAlike s ⟨ofResult r, [], { s with heap := h }⟩ ⟨ofResult r', [], { s with heap := k }⟩ :=
  ⟨r, r', h, k, (ends_result _ _ _).mpr rfl, (ends_result _ _ _).mpr rfl, .refl h, .refl k, hr⟩

theorem value {v v' : Value} (hv : v.Twins h k v') :
    EndAlike s ⟨.value v, [], { s with heap := h }⟩ ⟨.value v', [], { s with heap := k }⟩ :=
  result (.ok hv)

theorem fault (f : Fault) :
    EndAlike s ⟨.fault f, [], { s with heap := h }⟩ ⟨.fault f, [], { s with heap := k }⟩ :=
  result (.error f)

/-- A new array, with the same cells in both heaps. -/
theorem allocate (cells : Array Int64) :
    EndAlike s ⟨.value (.array h.arrays.size), [], { s with heap := (h.allocate cells).2 }⟩
      ⟨.value (.array k.arrays.size), [], { s with heap := (k.allocate cells).2 }⟩ := by
  refine value (.array ?_ ?_ ?_)
  · simp [Heap.allocate]
  · simp [Heap.allocate]
  · simp [Heap.cells, Heap.allocate]

theorem step (hm : m.step = .inl n) (hm' : m'.step = .inl n')
    (hheap : m.state.heap.Grows id n.state.heap) (hheap' : m'.state.heap.Grows id n'.state.heap)
    (hnext : EndAlike s n n') : EndAlike s m m' := by
  obtain ⟨r, r', h, k, hend, hend', hh, hk, hr⟩ := hnext
  exact ⟨r, r', h, k, (ends_step hm _).mpr hend, (ends_step hm' _).mpr hend', hheap.trans hh,
    hheap'.trans hk, hr⟩

/-- A step that leaves the state as it is. -/
theorem quiet {focus focus' next next' : Focus} {work work' rest rest' : List Work}
    (hm : Machine.step ⟨focus, work, { s with heap := h }⟩ =
      .inl ⟨next, rest, { s with heap := h }⟩)
    (hm' : Machine.step ⟨focus', work', { s with heap := k }⟩ =
      .inl ⟨next', rest', { s with heap := k }⟩)
    (hnext : EndAlike s ⟨next, rest, { s with heap := h }⟩ ⟨next', rest', { s with heap := k }⟩) :
    EndAlike s ⟨focus, work, { s with heap := h }⟩ ⟨focus', work', { s with heap := k }⟩ :=
  step hm hm' (.refl h) (.refl k) hnext

/-- An operand is evaluated first, and what waits for it goes on. -/
theorem operand {e : Code} {w w' : Work} (hw : w.isLeave = false) (hw' : w'.isLeave = false)
    (hfirst : EndAlike s (start e { s with heap := h }) (start e { s with heap := k }))
    (hnext : ∀ v v' h' k', h.Grows id h' → k.Grows id k' → v.Twins h' k' v' →
      EndAlike s ⟨.value v, [w], { s with heap := h' }⟩ ⟨.value v', [w'], { s with heap := k' }⟩) :
    EndAlike s ⟨.eval e, [w], { s with heap := h }⟩ ⟨.eval e, [w'], { s with heap := k }⟩ := by
  obtain ⟨r, r', h', k', hend, hend', hh, hk, hr⟩ := hfirst
  have hends : ∀ {w : Work} {l : Heap} {r : Except Fault Value} {t : State} {o : Outcome},
      (start e { s with heap := l }).Ends (r, t) → Ends ⟨ofResult r, [w], t⟩ o →
      Ends ⟨.eval e, [w], { s with heap := l }⟩ o :=
    fun hstart hrest ↦ ends_above_iff.mpr ⟨_, _, hstart, hrest⟩
  cases hr with
  | error f =>
    exact ⟨_, _, h', k', hends hend ((ends_fault_iff hw).mpr rfl),
      hends hend' ((ends_fault_iff hw').mpr rfl), hh, hk, .error f⟩
  | ok hvw =>
    obtain ⟨r, r', h'', k'', hrest, hrest', hh', hk', hr⟩ := hnext _ _ h' k' hh hk hvw
    exact ⟨r, r', h'', k'', hends hend hrest, hends hend' hrest', hh.trans hh', hk.trans hk', hr⟩

end EndAlike

/-- Wherever pure code is evaluated with the scope of `s`, it comes to the same. -/
def Settles (s : State) (e : Code) : Prop :=
  ∀ h k, s.heap.Grows id h → s.heap.Grows id k →
    EndAlike s (start e { s with heap := h }) (start e { s with heap := k })

section Settles

variable {s : State} {h k : Heap} {v v' : Value}

theorem endAlike_sequence {rest : List Code} (hrest : ∀ e ∈ rest, Settles s e)
    (hh : s.heap.Grows id h) (hk : s.heap.Grows id k) (hv : v.Twins h k v') :
    EndAlike s ⟨.value v, [.sequence rest], { s with heap := h }⟩
      ⟨.value v', [.sequence rest], { s with heap := k }⟩ := by
  induction rest generalizing v v' h k with
  | nil => exact .quiet rfl rfl (.value hv)
  | cons e rest ih =>
    obtain ⟨he, hrest⟩ := List.forall_mem_cons.mp hrest
    refine .quiet rfl rfl (.operand rfl rfl (he h k hh hk) ?_)
    intro u u' h' k' hh' hk' hu
    exact ih hrest (hh.trans hh') (hk.trans hk') hu

theorem endAlike_elements {rest : List Code} (hrest : ∀ e ∈ rest, Settles s e)
    (hh : s.heap.Grows id h) (hk : s.heap.Grows id k) (hv : v.Twins h k v') (done : List Int64) :
    EndAlike s ⟨.value v, [.element done rest], { s with heap := h }⟩
      ⟨.value v', [.element done rest], { s with heap := k }⟩ := by
  induction rest generalizing v v' h k done with
  | nil =>
    cases hv with
    | array => exact .quiet rfl rfl (.fault _)
    | @same v _ =>
      cases v with
      | int n =>
        exact .step rfl rfl (.allocate h _) (.allocate k _) (.allocate (n :: done).reverse.toArray)
      | _ => exact .quiet rfl rfl (.fault _)
  | cons e rest ih =>
    obtain ⟨he, hrest⟩ := List.forall_mem_cons.mp hrest
    cases hv with
    | array => exact .quiet rfl rfl (.fault _)
    | @same v _ =>
      cases v with
      | int n =>
        refine .quiet rfl rfl (.operand rfl rfl (he h k hh hk) ?_)
        intro u u' h' k' hh' hk' hu
        exact ih hrest (hh.trans hh') (hk.trans hk') hu (n :: done)
      | _ => exact .quiet rfl rfl (.fault _)

theorem endAlike_read {a b : Nat} (hcells : h.cells a = k.cells b) (hv : v.Twins h k v') :
    EndAlike s ⟨.value v, [.read a], { s with heap := h }⟩
      ⟨.value v', [.read b], { s with heap := k }⟩ := by
  cases hi : v.asInt "array access" with
  | error f =>
    have hi' := (hv.asInt_eq _).symm.trans hi
    refine .quiet ?_ ?_ (.fault f)
    · simp only [Machine.step, resume, hi]
    · simp only [Machine.step, resume, hi']
  | ok i =>
    have hi' := (hv.asInt_eq _).symm.trans hi
    refine .quiet ?_ ?_ (.result (.read hcells i))
    · simp only [Machine.step, resume, hi]
    · simp only [Machine.step, resume, hi']

theorem endAlike_index {e : Code} (he : Settles s e) (hh : s.heap.Grows id h)
    (hk : s.heap.Grows id k) (hv : v.Twins h k v') :
    EndAlike s ⟨.value v, [.index e], { s with heap := h }⟩
      ⟨.value v', [.index e], { s with heap := k }⟩ := by
  cases hv with
  | array ha hb hcells =>
    refine .quiet rfl rfl (.operand rfl rfl (he h k hh hk) ?_)
    intro u u' h' k' hh' hk' hu
    have hkept := (hh'.cells _ ha).trans (hcells.trans (hk'.cells _ hb).symm)
    exact endAlike_read hkept hu
  | @same v hv =>
    cases v with
    | array => contradiction
    | _ => exact .quiet rfl rfl (.fault _)

theorem endAlike_choose {onTrue : Code} {onFalse : Option Code} (hTrue : Settles s onTrue)
    (hFalse : ∀ e ∈ onFalse, Settles s e) (hh : s.heap.Grows id h) (hk : s.heap.Grows id k)
    (hv : v.Twins h k v') :
    EndAlike s ⟨.value v, [.choose onTrue onFalse], { s with heap := h }⟩
      ⟨.value v', [.choose onTrue onFalse], { s with heap := k }⟩ := by
  have hsame := hv.asBit_eq "if condition"
  cases hb : v.asBit "if condition" with
  | error f =>
    refine .quiet ?_ ?_ (.fault f)
    · simp only [Machine.step, resume, hb]
    · simp only [Machine.step, resume, ← hsame, hb]
  | ok b =>
    cases b with
    | true =>
      refine .quiet ?_ ?_ (hTrue h k hh hk)
      · simp only [Machine.step, resume, hb]
      · simp only [Machine.step, resume, ← hsame, hb]
    | false =>
      cases onFalse with
      | none =>
        refine .quiet ?_ ?_ (.value (.same (v := .void) (by decide)))
        · simp only [Machine.step, resume, hb]
        · simp only [Machine.step, resume, ← hsame, hb]
      | some other =>
        refine .quiet ?_ ?_ (hFalse other rfl h k hh hk)
        · simp only [Machine.step, resume, hb]
        · simp only [Machine.step, resume, ← hsame, hb]

theorem endAlike_length (hv : v.Twins h k v') :
    EndAlike s ⟨.value v, [.applyBuiltin .length], { s with heap := h }⟩
      ⟨.value v', [.applyBuiltin .length], { s with heap := k }⟩ := by
  cases hv with
  | array _ _ hcells =>
    refine .quiet rfl rfl (.value ?_)
    rw [hcells]
    exact .same (by simp [Value.kind])
  | @same v hv =>
    cases v with
    | array => contradiction
    | _ => exact .quiet rfl rfl (.fault _)

/-- Pure code comes to the same wherever the arrays of its scope exist. -/
theorem settles_of_isPure (hs : s.BindsExisting) {e : Code} (he : e.isPure = true) :
    Settles s e := by
  intro h k hh hk
  induction e using Expr.inductionOn generalizing h k with
  | assign | loop | define | assignCell | missing => contradiction
  | int n => exact .quiet rfl rfl (.value (.same (by simp [Value.kind])))
  | var name =>
    cases hname : Builtin.ofName? name with
    | some b =>
      refine .quiet ?_ ?_ (.value (.same (v := .builtin b.name) (by simp [Value.kind])))
      · simp only [Machine.step, begin, hname]
      · simp only [Machine.step, begin, hname]
    | none =>
      have hresult : ResultTwins h k (s.scope.get name) (s.scope.get name) := by
        cases hget : s.scope.get name with
        | error f => exact .error f
        | ok v => exact .ok (.of_grows (fun address hv ↦ hs name address (hv ▸ hget)) hh hk)
      refine .quiet ?_ ?_ (.result hresult)
      · simp only [Machine.step, begin, hname]
      · simp only [Machine.step, begin, hname]
  | binary op left right hleft hright =>
    simp only [Expr.isPure, Bool.and_eq_true] at he
    refine .quiet rfl rfl (.operand rfl rfl (hleft he.1 h k hh hk) ?_)
    intro v v' h' k' hh' hk' hv
    refine .quiet rfl rfl
      (.operand rfl rfl (hright he.2 h' k' (hh.trans hh') (hk.trans hk')) ?_)
    intro w w' h'' k'' hh'' hk'' hw
    exact .quiet rfl rfl (.result (.apply op (hv.grow hh'' hk'') hw))
  | block items hitems =>
    rw [Expr.isPure, Expr.isPureList_eq, List.all_eq_true] at he
    cases items with
    | nil => exact .quiet rfl rfl (.value (.same (by simp [Value.kind])))
    | cons first rest =>
      have hall := fun e hmem ↦ hitems e hmem (he e hmem)
      obtain ⟨hfirst, hrest⟩ := List.forall_mem_cons.mp hall
      refine .quiet rfl rfl (.operand rfl rfl (hfirst h k hh hk) ?_)
      intro v v' h' k' hh' hk' hv
      exact endAlike_sequence hrest (hh.trans hh') (hk.trans hk') hv
  | branch condition onTrue onFalse hcondition hTrue hFalse =>
    simp only [Expr.isPure, Bool.and_eq_true] at he
    have hother : ∀ e ∈ onFalse, Settles s e := by
      rintro e rfl
      exact hFalse e rfl he.2
    refine .quiet rfl rfl (.operand rfl rfl (hcondition he.1.1 h k hh hk) ?_)
    intro v v' h' k' hh' hk' hv
    exact endAlike_choose (hTrue he.1.2) hother (hh.trans hh') (hk.trans hk') hv
  | call name argument hargument =>
    simp only [Expr.isPure, Bool.and_eq_true, decide_eq_true_eq] at he
    obtain ⟨rfl, hpure⟩ := he
    refine .quiet rfl rfl (.operand rfl rfl (hargument hpure h k hh hk) ?_)
    intro v v' h' k' hh' hk' hv
    exact endAlike_length hv
  | array elements helements =>
    rw [Expr.isPure, Expr.isPureList_eq, List.all_eq_true] at he
    cases elements with
    | nil => exact .step rfl rfl (.allocate h _) (.allocate k _) (.allocate #[])
    | cons first rest =>
      have hall := fun e hmem ↦ helements e hmem (he e hmem)
      obtain ⟨hfirst, hrest⟩ := List.forall_mem_cons.mp hall
      refine .quiet rfl rfl (.operand rfl rfl (hfirst h k hh hk) ?_)
      intro v v' h' k' hh' hk' hv
      exact endAlike_elements hrest (hh.trans hh') (hk.trans hk') hv []
  | access base index hbase hindex =>
    simp only [Expr.isPure, Bool.and_eq_true] at he
    refine .quiet rfl rfl (.operand rfl rfl (hbase he.1 h k hh hk) ?_)
    intro v v' h' k' hh' hk' hv
    exact endAlike_index (hindex he.2) (hh.trans hh') (hk.trans hk') hv

end Settles

end Machine

theorem yields_iff_of_isPure {s : State} {e : Tree} {o : Outcome} (he : e.isPure = true) :
    s.Yields e o ↔ (Machine.start (e.marked s.nextSite).1 s).Ends o := by
  have hsite : (e.marked s.nextSite).2 = s.nextSite :=
    (Expr.keptByMarking_of_isPure he s.nextSite).2
  show (s.starting e).Ends o ↔ _
  rw [State.starting, hsite]

/-- Where the arrays that are bound to names exist, as they do at every moment of a session, a pure
expression ends, in a value or a fault. It leaves all as it is and only adds arrays. The same
evaluated again does the same, and ends in the same fault or in a value that `==` finds equal. -/
theorem pure_repeats :
    (∀ s : State, s.BindsExisting → ∀ e : Tree, e.isPure = true →
      ∃ r t, s.Yields e (r, t) ∧ t = { s with heap := t.heap } ∧ s.heap.Grows id t.heap ∧
        ∃ r' t', t.Yields e (r', t') ∧ t' = { t with heap := t'.heap } ∧ t.heap.Grows id t'.heap ∧
          EqualResults t'.heap r r') ∧
    (∀ s, Reached s → s.BindsExisting) ∧
    ∀ s file source program m, Reached s → Parser.parse file source = .ok program →
      During (s.afterReading file source) program m → m.state.BindsExisting := by
  refine ⟨?_, ?_, ?_⟩
  · intro s hs e he
    have hsettles := Machine.settles_of_isPure hs (Expr.keptByMarking_of_isPure he s.nextSite).1
    obtain ⟨r, -, h, -, hend, -, hh, -, -⟩ := hsettles s.heap s.heap (.refl _) (.refl _)
    obtain ⟨r₁, r', h₁, k, hend₁, hend', -, hk, htwins⟩ := hsettles s.heap h (.refl _) hh
    have hfirst : s.Yields e (r, { s with heap := h }) := (yields_iff_of_isPure he).mpr hend
    obtain ⟨rfl, hstate⟩ := Prod.mk.inj (((yields_iff_of_isPure he).mpr hend₁).unique hfirst)
    obtain rfl : h₁ = h := congrArg State.heap hstate
    refine ⟨r₁, _, hfirst, rfl, hh, r', { s with heap := k }, ?_, rfl, hk, htwins.equal hk⟩
    exact (yields_iff_of_isPure he).mpr hend'
  · intro s h
    obtain ⟨known, -, -, hrefers⟩ := coherent_of_reached h
    exact hrefers.bindsExisting
  · intro s file source program m h _ hduring
    have hcoherent := coherent_of_reached h
    have hread : (s.afterReading file source).Coherent := hcoherent
    obtain ⟨known, -, hknows⟩ := exists_knows_of_during hduring hread
    exact hknows.refers.state.bindsExisting

/-- A new array each time, made from an element of an array and the length of another one. -/
def literalOfParts : Tree :=
  .branch (.binary .equal (.var "a") (.var "b"))
    (.array [.access (.var "a") (.int 1), .call "length" (.var "c")]) none

/-- The two arrays are different ones that are equal. -/
theorem pure_repeats_literal :
    aliased.BindsExisting ∧ literalOfParts.isPure = true ∧
      ∃ t, aliased.Yields literalOfParts (.ok (.array 2), t) ∧
        ∃ t', t.Yields literalOfParts (.ok (.array 3), t') ∧
          Operator.equal.apply t'.heap (.array 2) (.array 3) = .ok (.bit true) := by
  have hvalues : aliased.scope.values = [.array 0, .array 0, .array 1] := rfl
  have hbinds : aliased.BindsExisting := by
    intro name address hget
    have hmem := Scope.mem_values_of_get hget
    have hsize : aliased.heap.arrays.size = 2 := rfl
    simp only [hvalues, List.mem_cons, Value.array.injEq, List.not_mem_nil, or_false] at hmem
    omega
  have hruns : ∃ t t', aliased.Yields literalOfParts (.ok (.array 2), t) ∧
      t.Yields literalOfParts (.ok (.array 3), t') := ⟨_, _, ⟨30, rfl⟩, 30, rfl⟩
  obtain ⟨t, t', hrun, hrun'⟩ := hruns
  obtain ⟨r, u, hfirst, -, -, r', u', hsecond, -, -, hequal⟩ :=
    pure_repeats.1 aliased hbinds literalOfParts rfl
  obtain ⟨rfl, rfl⟩ := Prod.mk.inj (hfirst.unique hrun)
  obtain ⟨rfl, rfl⟩ := Prod.mk.inj (hsecond.unique hrun')
  exact ⟨hbinds, rfl, u, hfirst, u', hsecond, hequal⟩

end Interpreter

end ExprLang
