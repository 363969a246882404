import ExprLang.Proofs.Interpreter.Batches

/-!
What becomes of arrays. A step leaves the heap alone, adds an array to it, or writes one cell, and
it writes only to go on with an assignment to a cell (`stores_step`). So arrays stay and keep their
lengths through every evaluation (`Heap.Grows`), and where there is no assignment to a cell they
keep their cells as well (`cells_of_run`). An assignment evaluates its operands in order, each in
the state that the one before it left, and then writes the one cell or fails
(`yields_assignCell_iff`). Together this is `arrays_of_evaluate`.
-/

set_option autoImplicit false

namespace ExprLang

/-! ### Heaps -/

namespace Heap

theorem cells_allocate {h : Heap} {address : Nat} (haddress : address < h.arrays.size)
    (cells : Array Int64) : (h.allocate cells).2.cells address = h.cells address := by
  simp [Heap.cells, Heap.allocate, Array.getElem?_push, Nat.ne_of_lt haddress]

theorem cells_setCell (h : Heap) (address position : Nat) (value : Int64) (other : Nat) :
    (h.setCell address position value).cells other =
      if other = address then (h.cells other).setIfInBounds position value
      else h.cells other := by
  simp only [Heap.cells, Heap.setCell, Array.getD_eq_getD_getElem?, Array.getElem?_modify]
  by_cases hother : other = address
  · subst hother
    cases h.arrays[other]? <;> simp
  · simp [hother, Ne.symm hother]

/-- A cell that is written is changed, and no other cell of any array is. -/
theorem getElem?_cells_setCell {h : Heap} {address position : Nat}
    (hposition : position < (h.cells address).size) (value : Int64) (other i : Nat) :
    ((h.setCell address position value).cells other)[i]? =
      if other = address ∧ i = position then some value else (h.cells other)[i]? := by
  rw [cells_setCell]
  by_cases hother : other = address
  · subst hother
    by_cases hi : i = position
    · subst hi
      simp [hposition]
    · simp [hi, Ne.symm hi]
  · simp [hother]

theorem position_eq (h : Heap) (address : Nat) (k : Int64) : h.position address k =
    if 0 ≤ k.toInt ∧ k.toInt < (h.cells address).size then .ok k.toInt.toNat
    else .error (h.outOfBounds address k) := by
  simp only [Heap.position, Heap.index?, Bool.and_eq_true, decide_eq_true_eq]
  split_ifs <;> rfl

/-- Arrays are added only, and those that were there look the same in some `view` of their cells. -/
structure Grows {β : Type} (view : Array Int64 → β) (h h' : Heap) : Prop where
  size_le : h.arrays.size ≤ h'.arrays.size
  cells : ∀ address < h.arrays.size, view (h'.cells address) = view (h.cells address)

namespace Grows

variable {β : Type} {view : Array Int64 → β}

theorem refl (h : Heap) : h.Grows view h := ⟨Nat.le_refl _, fun _ _ ↦ rfl⟩

theorem trans {h h' h'' : Heap} (hfirst : h.Grows view h') (hsecond : h'.Grows view h'') :
    h.Grows view h'' := by
  refine ⟨Nat.le_trans hfirst.size_le hsecond.size_le, fun address haddress ↦ ?_⟩
  have hlater := hsecond.cells address (Nat.lt_of_lt_of_le haddress hfirst.size_le)
  exact hlater.trans (hfirst.cells address haddress)

theorem allocate (h : Heap) (cells : Array Int64) : h.Grows view (h.allocate cells).2 :=
  ⟨by simp [Heap.allocate], fun _ haddress ↦ congrArg view (cells_allocate haddress cells)⟩

theorem setCell (h : Heap) (address position : Nat) (value : Int64) :
    h.Grows Array.size (h.setCell address position value) := by
  refine ⟨by simp [Heap.setCell], fun other _ ↦ ?_⟩
  rw [cells_setCell]
  split_ifs
  · exact Array.size_setIfInBounds
  · rfl

end Grows

end Heap

/-! ### Trees without assignments to cells -/

namespace Expr

variable {μ : Type}

mutual

/-- Somewhere in the tree, the bodies of functions included, a cell is assigned to. -/
def writesCells : Expr μ → Bool
  | int _ | var _ | missing => false
  | binary _ left right => left.writesCells || right.writesCells
  | assign _ value => value.writesCells
  | block items => writesCellsList items
  | branch condition onTrue onFalse =>
    condition.writesCells || onTrue.writesCells || writesCellsOption onFalse
  | loop condition body => condition.writesCells || body.writesCells
  | define _ _ _ body => body.writesCells
  | call _ argument => argument.writesCells
  | array elements => writesCellsList elements
  | access base index => base.writesCells || index.writesCells
  | assignCell .. => true

def writesCellsList : List (Expr μ) → Bool
  | [] => false
  | e :: rest => e.writesCells || writesCellsList rest

def writesCellsOption : Option (Expr μ) → Bool
  | none => false
  | some e => e.writesCells

end

theorem writesCellsList_eq (items : List (Expr μ)) :
    writesCellsList items = items.any writesCells := by
  induction items with
  | nil => rfl
  | cons e rest ih => rw [writesCellsList, ih, List.any_cons]

theorem writesCellsList_markedList {items : List (Expr μ)}
    (h : ∀ e ∈ items, ∀ site, (e.marked site).1.writesCells = e.writesCells) (site : Site) :
    writesCellsList (markedList site items).1 = writesCellsList items := by
  induction items generalizing site with
  | nil => rfl
  | cons e rest ih =>
    have hrest := ih fun e he ↦ h e (List.mem_cons_of_mem _ he)
    simp [markedList, writesCellsList, h e List.mem_cons_self, hrest]

theorem writesCells_marked (e : Expr μ) (site : Site) :
    (e.marked site).1.writesCells = e.writesCells := by
  induction e generalizing site with
  | int | var | missing | assignCell => rfl
  | define _ _ _ _ hbody => simp [marked, writesCells, hbody]
  | assign _ _ hvalue => simp [marked, writesCells, hvalue]
  | call _ _ hargument => simp [marked, writesCells, hargument]
  | binary _ _ _ hleft hright => simp [marked, writesCells, hleft, hright]
  | loop _ _ hcondition hbody => simp [marked, writesCells, hcondition, hbody]
  | access _ _ hbase hindex => simp [marked, writesCells, hbase, hindex]
  | branch _ _ onFalse hcondition hTrue hFalse =>
    cases onFalse with
    | none => simp [marked, markedOption, writesCells, writesCellsOption, hcondition, hTrue]
    | some other =>
      simp [marked, markedOption, writesCells, writesCellsOption, hcondition, hTrue,
        hFalse other rfl]
  | block items hitems => exact writesCellsList_markedList hitems site
  | array elements helements => exact writesCellsList_markedList helements site

end Expr

namespace Interpreter

/-- What code without assignments to cells is made of. -/
def Piece.ReadsOnly : Piece → Prop
  | .code e | .body e => e.writesCells = false
  | .operator _ => True

theorem closed_readsOnly : Closed Piece.ReadsOnly := by
  refine ⟨fun e he ↦ ?_, fun e he ↦ he⟩
  change e.writesCells = false at he
  cases e with
  | int | var | missing => exact List.forall_mem_nil _
  | assignCell => contradiction
  | assign | call | define | binary | access | loop =>
    simpa [Expr.pieces, Piece.ReadsOnly, Expr.writesCells] using he
  | block | array =>
    simpa [Expr.pieces, Piece.ReadsOnly, Expr.writesCells, Expr.writesCellsList_eq] using he
  | branch _ _ onFalse =>
    cases onFalse <;>
      simpa [Expr.pieces, Piece.ReadsOnly, Expr.writesCells, Expr.writesCellsOption, and_assoc]
        using he

/-! ### Steps -/

/-- Waits for an operand of an assignment to a cell. -/
def Work.isCell : Work → Bool
  | cellIndex .. | cellValue .. | write .. => true
  | _ => false

namespace Machine

/-- An assignment to a cell is about to begin, or waits for an operand. -/
def Assigns (m : Machine) : Prop :=
  (∃ base index value, m.focus = .eval (.assignCell base index value)) ∨
    ∃ w ∈ m.work, w.isCell = true

/-- What a step does to the heap. -/
inductive Stores (m m' : Machine) : Prop
  | quiet (hheap : m'.state.heap = m.state.heap)
      (hwork : ∀ w ∈ m'.work, w.isCell = true → w ∈ m.work)
  | allocates (cells : Array Int64) (hheap : m'.state.heap = (m.state.heap.allocate cells).2)
      (hwork : ∀ w ∈ m'.work, w.isCell = true → w ∈ m.work)
  /-- An assignment goes on, or fails. -/
  | assigns (hm : m.Assigns) (hheap : m'.state.heap = m.state.heap)
  | writes (hm : m.Assigns) (address position : Nat) (value : Int64)
      (hheap : m'.state.heap = m.state.heap.setCell address position value)

/-- Nothing is stored, and of the new work none belongs to an assignment to a cell. -/
theorem stores_quiet {m : Machine} {focus : Focus} {s : State} (new rest : List Work)
    (hheap : s.heap = m.state.heap) (hnew : ∀ w ∈ new, w.isCell = false)
    (hrest : ∀ w ∈ rest, w ∈ m.work) : Stores m ⟨focus, new ++ rest, s⟩ := by
  refine .quiet hheap fun w hw hcell ↦ ?_
  rcases List.mem_append.mp hw with hmem | hmem
  · rw [hnew w hmem] at hcell
    contradiction
  · exact hrest w hmem

theorem heap_countIteration (s : State) : s.countIteration.2.heap = s.heap := by
  simp only [State.countIteration]
  split_ifs <;> rfl

theorem stores_beginCheck {m : Machine} (condition body : Code) (last : Value) {work : List Work}
    {s : State} (hheap : s.heap = m.state.heap) (hwork : ∀ w ∈ work, w ∈ m.work) :
    Stores m (beginCheck condition body last work s) := by
  have hsame : s.countIteration.2.heap = m.state.heap := (heap_countIteration s).trans hheap
  rcases beginCheck_cases condition body last work s with hcheck | hrefuse
  · rw [hcheck]
    exact stores_quiet [_] work hsame (List.forall_mem_singleton.mpr rfl) hwork
  · rw [hrefuse]
    exact stores_quiet [] work hsame (List.forall_mem_nil _) hwork

/-- Only parts of an assignment to a cell are followed by others. -/
theorem assigns_of_splits {t : Task} {e : Code} {w : Work} (h : Splits t e w)
    (hw : w.isCell = true) (rest : List Work) (s : State) : (t.machine rest s).Assigns := by
  cases h with
  | assignCell => exact .inl ⟨_, _, _, rfl⟩
  | cellIndex | cellValue => exact .inr ⟨_, List.mem_cons_self, rfl⟩
  | _ => contradiction

theorem stores_of_settles {t : Task} {a : Action} (h : Settles t a) (rest : List Work) (s : State) :
    Stores (t.machine rest s) ⟨ofResult (a.act s).1, rest, (a.act s).2⟩ := by
  have hrest : ∀ w ∈ rest, w.isCell = true → w ∈ t.work ++ rest :=
    fun w hw _ ↦ List.mem_append_right _ hw
  cases h with
  | emptyArray | array => exact .allocates _ rfl hrest
  | applyBuiltin v b =>
    obtain ⟨r, output, hact, -⟩ := s.applyBuiltin_cases b v
    rw [Action.act, hact]
    exact .quiet rfl hrest
  | write n address i =>
    have hassigns : Assigns ⟨.value (.int n), .write address i :: rest, s⟩ :=
      .inr ⟨_, List.mem_cons_self, rfl⟩
    rw [Action.act]
    cases s.heap.position address i with
    | ok cell => exact .writes hassigns address cell n rfl
    | error f => exact .assigns hassigns rfl
  | _ => exact .quiet rfl hrest

/-- A step adds an array at most, unless it belongs to an assignment to a cell. -/
theorem stores_of_issues {t : Task} {i : Instruction} (h : Issues t i) (rest : List Work)
    (s : State) : Stores (t.machine rest s) (i.perform rest s) := by
  have hrest : ∀ w ∈ rest, w ∈ t.work ++ rest := fun w hw ↦ List.mem_append_right _ hw
  have hquiet : ∀ {focus : Focus} {s' : State} (new : List Work), s'.heap = s.heap →
      (∀ w ∈ new, w.isCell = false) → Stores (t.machine rest s) ⟨focus, new ++ rest, s'⟩ :=
    fun new hheap hnew ↦ stores_quiet new rest hheap hnew hrest
  cases h with
  | settle ha => exact stores_of_settles ha rest s
  | @push _ e w hsplit =>
    by_cases hw : w.isCell = true
    · exact .assigns (assigns_of_splits hsplit hw rest s) rfl
    · exact hquiet [w] rfl (by simpa using hw)
  | onTrue | onFalse | leave => exact hquiet [] rfl (List.forall_mem_nil _)
  | @find name hname argument =>
    rw [Instruction.perform]
    split
    · exact hquiet [_] rfl (List.forall_mem_singleton.mpr rfl)
    · exact hquiet [] rfl (List.forall_mem_nil _)
  | enter v f =>
    rw [Instruction.perform]
    split_ifs
    · exact hquiet [] rfl (List.forall_mem_nil _)
    · exact hquiet [_] rfl (List.forall_mem_singleton.mpr rfl)
  | turn => exact hquiet [_] rfl (List.forall_mem_singleton.mpr rfl)
  | enterLoop condition body => exact stores_beginCheck condition body .void rfl hrest
  | check v condition body => exact stores_beginCheck condition body v rfl hrest

theorem stores_step {m m' : Machine} (h : m.step = .inl m') : Stores m m' := by
  cases transition_of_step h with
  | perform t rest s => exact stores_of_issues t.issues rest s
  | pass f w rest s =>
    cases w <;> exact .quiet rfl fun _ hmem _ ↦ List.mem_cons_of_mem _ hmem

/-! ### Runs -/

/-- No step takes an array away or changes its length. -/
theorem grows_step {m m' : Machine} (h : m.step = .inl m') :
    m.state.heap.Grows Array.size m'.state.heap := by
  cases stores_step h with
  | quiet hheap | assigns _ hheap => exact hheap ▸ .refl _
  | allocates cells hheap => exact hheap ▸ .allocate _ cells
  | writes _ address position value hheap => exact hheap ▸ .setCell _ address position value

theorem grows_of_run {m : Machine} {fuel : Nat} {r : Except Fault Value} {t : State}
    (h : m.run fuel = some (r, t)) : m.state.heap.Grows Array.size t.heap :=
  run_invariant (P := fun m' ↦ m.state.heap.Grows Array.size m'.state.heap)
    (fun _ _ hm hstep ↦ hm.trans (grows_step hstep)) h (.refl _)

/-- The machine assigns to no cell, now or later, and all arrays of `h` have kept their cells. -/
structure KeepsCells (h : Heap) (m : Machine) : Prop where
  keeps : m.Keeps Piece.ReadsOnly
  work : ∀ w ∈ m.work, w.isCell = false
  heap : h.Grows id m.state.heap

theorem KeepsCells.not_assigns {h : Heap} {m : Machine} (hm : m.KeepsCells h) : ¬m.Assigns := by
  rintro (⟨base, index, value, hfocus⟩ | ⟨w, hmem, hw⟩)
  · have hreads : (Expr.assignCell base index value).writesCells = false :=
      hm.keeps.focus _ hfocus
    contradiction
  · rw [hm.work w hmem] at hw
    contradiction

theorem keepsCells_step {h : Heap} {m m' : Machine} (hm : m.KeepsCells h)
    (hstep : m.step = .inl m') : m'.KeepsCells h := by
  have hkeeps := keeps_step closed_readsOnly hm.keeps hstep
  have hwork : (∀ w ∈ m'.work, w.isCell = true → w ∈ m.work) →
      ∀ w ∈ m'.work, w.isCell = false := by
    intro hold w hmem
    by_contra hw
    rw [Bool.not_eq_false] at hw
    exact hm.not_assigns (.inr ⟨w, hold w hmem hw, hw⟩)
  cases stores_step hstep with
  | quiet hheap hold => exact ⟨hkeeps, hwork hold, hheap ▸ hm.heap⟩
  | allocates cells hheap hold =>
    exact ⟨hkeeps, hwork hold, hheap ▸ hm.heap.trans (.allocate _ cells)⟩
  | assigns hassigns => exact absurd hassigns hm.not_assigns
  | writes hassigns => exact absurd hassigns hm.not_assigns

theorem cells_of_run {m : Machine} {fuel : Nat} {r : Except Fault Value} {t : State}
    (hkeeps : m.Keeps Piece.ReadsOnly) (hwork : m.work = []) (h : m.run fuel = some (r, t)) :
    m.state.heap.Grows id t.heap := by
  have hstart : m.KeepsCells m.state.heap := ⟨hkeeps, by simp [hwork], .refl _⟩
  exact (run_invariant (fun _ _ hm hstep ↦ keepsCells_step hm hstep) h hstart).heap

end Machine

/-! ### Assignments to cells -/

/-- The evaluation of `e` ends with the outcome. -/
def State.Yields (s : State) (e : Tree) (o : Outcome) : Prop := ∃ fuel, s.evaluate fuel e = some o

theorem State.Yields.unique {s : State} {e : Tree} {o o' : Outcome} (h : s.Yields e o)
    (h' : s.Yields e o') : o = o' := by
  obtain ⟨fuel, hrun⟩ := h
  obtain ⟨more, hrun'⟩ := h'
  have hfirst := State.evaluate_mono hrun (Nat.le_max_left fuel more)
  have hsecond := State.evaluate_mono hrun' (Nat.le_max_right fuel more)
  exact Option.some.inj (hfirst.symm.trans hsecond)

theorem State.Yields.nextSite {s t : State} {e : Tree} {r : Except Fault Value}
    (h : s.Yields e (r, t)) : t.nextSite = (e.marked s.nextSite).2 := by
  obtain ⟨fuel, hrun⟩ := h
  exact Machine.nextSite_of_run hrun

/-- The array that is indexed. -/
def arrayOf : Value → Except Fault Nat
  | .array address => .ok address
  | v => .error (.typing (.notArray v.kind.name))

/-- The number that is put into a cell; bits are not taken for numbers here. -/
def elementOf : Value → Except Fault Int64
  | .int n => .ok n
  | v => .error (.typing (.element v.kind.name))

theorem eq_ok_of_arrayOf {r : Except Fault Value} {address : Nat}
    (h : r.bind arrayOf = .ok address) : r = .ok (.array address) := by
  cases r with
  | error f => contradiction
  | ok v =>
    cases v with
    | array => exact congrArg (fun a ↦ Except.ok (Value.array a)) (Except.ok.inj h)
    | _ => contradiction

theorem exists_of_asInt {r : Except Fault Value} {operation : String} {k : Int64}
    (h : r.bind (·.asInt operation) = .ok k) : ∃ w, r = .ok w ∧ w.toInt? = some k := by
  cases r with
  | error f => contradiction
  | ok w =>
    refine ⟨w, rfl, ?_⟩
    simp only [Except.bind, Value.asInt] at h
    cases hw : w.toInt? with
    | none => simp [hw] at h
    | some n =>
      rw [hw] at h
      exact congrArg some (Except.ok.inj h)

/-- Work that waits for an operand gets what the operand yields. -/
theorem ends_operand_iff (n : Site) {s : State} {e : Tree} {w : Work} {o : Outcome} :
    Machine.Ends ⟨.eval (e.marked s.nextSite).1, [w], s.numberedFrom n⟩ o ↔
      ∃ r t, s.Yields e (r, t) ∧ Machine.Ends ⟨Machine.ofResult r, [w], t.numberedFrom n⟩ o := by
  change ((Machine.start _ (s.numberedFrom n)).above [w]).Ends o ↔ _
  rw [Machine.ends_above_iff]
  constructor
  · rintro ⟨r, t, hstart, hrest⟩
    obtain ⟨u, hu, -, rfl⟩ := (ends_start_iff n).mp hstart
    exact ⟨r, u, hu, hrest⟩
  · rintro ⟨r, u, hu, hrest⟩
    exact ⟨r, _, (ends_start_iff n).mpr ⟨u, hu, hu.nextSite, rfl⟩, hrest⟩

namespace Machine

variable {r : Except Fault Value} {s : State} {o : Outcome}

theorem ends_cellIndex_iff {index value : Code} :
    Ends ⟨ofResult r, [.cellIndex index value], s⟩ o ↔
      match r.bind arrayOf with
      | .error f => o = (.error f, s)
      | .ok address => Ends ⟨.eval index, [.cellValue address value], s⟩ o := by
  cases r with
  | error f => exact (ends_step rfl o).trans (ends_result (.error f) s o)
  | ok v =>
    cases v with
    | array address => exact ends_step rfl o
    | _ => exact (ends_step rfl o).trans (ends_result (.error _) s o)

theorem ends_cellValue_iff {address : Nat} {value : Code} :
    Ends ⟨ofResult r, [.cellValue address value], s⟩ o ↔
      match r.bind (·.asInt "array element assignment") with
      | .error f => o = (.error f, s)
      | .ok k => Ends ⟨.eval value, [.write address k], s⟩ o := by
  cases r with
  | error f => exact (ends_step rfl o).trans (ends_result (.error f) s o)
  | ok v =>
    refine (ends_step rfl o).trans ?_
    simp only [resume, Except.bind]
    cases v.asInt "array element assignment" with
    | error f => exact ends_result (.error f) s o
    | ok k => rfl

theorem ends_write_iff {address : Nat} {k : Int64} :
    Ends ⟨ofResult r, [.write address k], s⟩ o ↔
      match r.bind elementOf with
      | .error f => o = (.error f, s)
      | .ok m =>
        match s.heap.position address k with
        | .error f => o = (.error f, s)
        | .ok i => o = (.ok (.int m), { s with heap := s.heap.setCell address i m }) := by
  cases r with
  | error f => exact (ends_step rfl o).trans (ends_result (.error f) s o)
  | ok v =>
    cases v with
    | int m =>
      refine (ends_step rfl o).trans ?_
      simp only [resume, Except.bind, elementOf]
      cases s.heap.position address k with
      | error f => exact ends_result (.error f) s o
      | ok i => exact ends_result (.ok (.int m)) _ o
    | _ => exact (ends_step rfl o).trans (ends_result (.error _) s o)

end Machine

/-- An assignment to a cell evaluates its operands in order, each in the state that the one before
it left, and writes to the array that the first of them was. It ends with the first that fails or is
not of the kind that is needed. All its definitions have got their sites before, so the next ones
are numbered from `n` on, however it ends. -/
theorem yields_assignCell_iff {base index value : Tree} {n : Site} {s : State} {o : Outcome}
    (hn : n = ((Expr.assignCell base index value).marked s.nextSite).2) :
    s.Yields (.assignCell base index value) o ↔
      ∃ r₁ s₁, s.Yields base (r₁, s₁) ∧ match r₁.bind arrayOf with
        | .error f => o = (.error f, s₁.numberedFrom n)
        | .ok address => ∃ r₂ s₂, s₁.Yields index (r₂, s₂) ∧
          match r₂.bind (·.asInt "array element assignment") with
          | .error f => o = (.error f, s₂.numberedFrom n)
          | .ok k => ∃ r₃ s₃, s₂.Yields value (r₃, s₃) ∧ match r₃.bind elementOf with
            | .error f => o = (.error f, s₃.numberedFrom n)
            | .ok m => match s₃.heap.position address k with
              | .error f => o = (.error f, s₃.numberedFrom n)
              | .ok i => o = (.ok (.int m),
                  { s₃ with heap := s₃.heap.setCell address i m }.numberedFrom n) := by
  have hbegin : s.Yields (.assignCell base index value) o ↔
      Machine.Ends ⟨.eval (base.marked s.nextSite).1,
        [.cellIndex (index.marked (base.marked s.nextSite).2).1
          (value.marked (index.marked (base.marked s.nextSite).2).2).1], s.numberedFrom n⟩ o :=
    hn ▸ Machine.ends_step rfl o
  rw [hbegin, ends_operand_iff]
  refine exists₂_congr fun r₁ s₁ ↦ and_congr_right fun hbase ↦ ?_
  rw [Machine.ends_cellIndex_iff, ← hbase.nextSite]
  cases r₁.bind arrayOf with
  | error f => rfl
  | ok address =>
    refine (ends_operand_iff n).trans (exists₂_congr fun r₂ s₂ ↦ and_congr_right fun hindex ↦ ?_)
    rw [Machine.ends_cellValue_iff, ← hindex.nextSite]
    cases r₂.bind (·.asInt "array element assignment") with
    | error f => rfl
    | ok k =>
      refine (ends_operand_iff n).trans (exists₂_congr fun r₃ s₃ ↦ and_congr_right fun _ ↦ ?_)
      exact Machine.ends_write_iff

/-- Operands of the right kinds decide how an assignment to a cell ends: the cell is written if the
array has it, and nothing is if not. -/
theorem yields_assignCell {base index value : Tree} {address : Nat} {w : Value} {k m : Int64}
    {s s₁ s₂ s₃ : State} (hbase : s.Yields base (.ok (.array address), s₁))
    (hindex : s₁.Yields index (.ok w, s₂)) (hw : w.toInt? = some k)
    (hvalue : s₂.Yields value (.ok (.int m), s₃)) :
    s.Yields (.assignCell base index value)
      (if 0 ≤ k.toInt ∧ k.toInt < (s₃.heap.cells address).size then
        (.ok (.int m), { s₃ with heap := s₃.heap.setCell address k.toInt.toNat m })
      else (.error (s₃.heap.outOfBounds address k), s₃)) := by
  have hsite : s₃.nextSite = ((Expr.assignCell base index value).marked s.nextSite).2 := by
    rw [hvalue.nextSite, hindex.nextSite, hbase.nextSite]
    rfl
  have hk : Except.bind (.ok w) (·.asInt "array element assignment") = .ok k := by
    simp only [Except.bind, Value.asInt, hw]
  refine (yields_assignCell_iff hsite).mpr ⟨_, s₁, hbase, _, s₂, hindex, ?_⟩
  rw [hk]
  refine ⟨_, s₃, hvalue, ?_⟩
  change match s₃.heap.position address k with
    | .error f => _
    | .ok i => _
  rw [Heap.position_eq]
  split_ifs <;> rfl

/-- An assignment that fails leaves the state as the last operand did that was evaluated, apart from
where the next definitions are numbered from. -/
theorem exists_operand_of_fault {base index value : Tree} {s t : State} {f : Fault}
    (h : s.Yields (.assignCell base index value) (.error f, t)) :
    ∃ r u, t = { u with nextSite := t.nextSite } ∧
      (s.Yields base (r, u) ∨
        ∃ address s₁, s.Yields base (.ok (.array address), s₁) ∧
          (s₁.Yields index (r, u) ∨
            ∃ w k s₂, s₁.Yields index (.ok w, s₂) ∧ w.toInt? = some k ∧
              s₂.Yields value (r, u))) := by
  obtain ⟨r₁, s₁, hbase, h⟩ := (yields_assignCell_iff rfl).mp h
  cases haddress : r₁.bind arrayOf with
  | error g =>
    rw [haddress] at h
    cases h
    exact ⟨r₁, s₁, rfl, .inl hbase⟩
  | ok address =>
    rw [haddress] at h
    obtain rfl := eq_ok_of_arrayOf haddress
    obtain ⟨r₂, s₂, hindex, h⟩ := h
    cases hk : r₂.bind (·.asInt "array element assignment") with
    | error g =>
      rw [hk] at h
      cases h
      exact ⟨r₂, s₂, rfl, .inr ⟨address, s₁, hbase, .inl hindex⟩⟩
    | ok k =>
      rw [hk] at h
      obtain ⟨w, rfl, hw⟩ := exists_of_asInt hk
      obtain ⟨r₃, s₃, hvalue, h⟩ := h
      have hstate : t = { s₃ with nextSite := t.nextSite } := by
        cases hm : r₃.bind elementOf with
        | error g =>
          rw [hm] at h
          cases h
          rfl
        | ok m =>
          rw [hm] at h
          cases hposition : s₃.heap.position address k with
          | error g =>
            simp only [hposition] at h
            cases h
            rfl
          | ok i => simp [hposition] at h
      exact ⟨r₃, s₃, hstate, .inr ⟨address, s₁, hbase, .inr ⟨w, k, s₂, hindex, hw, hvalue⟩⟩⟩

/-- Assumes: an evaluation ends. Every array that was there still is, with the same length. Where no
cell is assigned to, neither in the expression nor in the body of a function in it or in the table,
no cell of such an array has changed. An assignment to a cell whose operands are an array, a number
or bit and an integer, each evaluated in the state that the one before it left, writes to the array
that the first of them was. If the array has the cell, the assignment gives the integer, and that
cell and no other of any array has changed. If not, it fails and nothing has. In whatever way an
assignment fails, the last operand that was evaluated has left all as it is then, apart from where
the next definitions are numbered from. -/
theorem arrays_of_evaluate (s : State) :
    (∀ e r t, s.Yields e (r, t) →
      (∀ address < s.heap.arrays.size, address < t.heap.arrays.size ∧
        (t.heap.cells address).size = (s.heap.cells address).size) ∧
      (e.writesCells = false →
        (∀ name f, s.functions.get? name = some f → f.body.writesCells = false) →
        ∀ address < s.heap.arrays.size, t.heap.cells address = s.heap.cells address)) ∧
    (∀ base index value address w k m s₁ s₂ s₃, s.Yields base (.ok (.array address), s₁) →
      s₁.Yields index (.ok w, s₂) → w.toInt? = some k → s₂.Yields value (.ok (.int m), s₃) →
      ∃ r t, (∀ o, s.Yields (.assignCell base index value) o ↔ o = (r, t)) ∧
        if 0 ≤ k.toInt ∧ k.toInt < (s₃.heap.cells address).size then
          r = .ok (.int m) ∧ t = { s₃ with heap := t.heap } ∧
            t.heap.arrays.size = s₃.heap.arrays.size ∧
            ∀ other i, (t.heap.cells other)[i]? =
              if other = address ∧ i = k.toInt.toNat then some m else (s₃.heap.cells other)[i]?
        else r = .error (.runtime (.outOfBounds k (s₃.heap.cells address).size)) ∧ t = s₃) ∧
    ∀ base index value f t, s.Yields (.assignCell base index value) (.error f, t) →
      ∃ r u, t = { u with nextSite := t.nextSite } ∧
        (s.Yields base (r, u) ∨
          ∃ address s₁, s.Yields base (.ok (.array address), s₁) ∧
            (s₁.Yields index (r, u) ∨
              ∃ w k s₂, s₁.Yields index (.ok w, s₂) ∧ w.toInt? = some k ∧
                s₂.Yields value (r, u))) := by
  refine ⟨?_, ?_, fun _ _ _ _ _ h ↦ exists_operand_of_fault h⟩
  · rintro e r t ⟨fuel, hrun⟩
    constructor
    · intro address haddress
      have hgrows := Machine.grows_of_run hrun
      exact ⟨Nat.lt_of_lt_of_le haddress hgrows.size_le, hgrows.cells address haddress⟩
    · intro he hfunctions
      have hreads : (e.marked s.nextSite).1.writesCells = false := by
        rw [Expr.writesCells_marked, he]
      have hkeeps : (s.starting e).Keeps Piece.ReadsOnly :=
        .eval hreads (List.forall_mem_nil _) hfunctions
      exact (Machine.cells_of_run hkeeps rfl hrun).cells
  · intro base index value address w k m s₁ s₂ s₃ hbase hindex hw hvalue
    have hend := yields_assignCell hbase hindex hw hvalue
    have hunique : ∀ {r t}, s.Yields (.assignCell base index value) (r, t) →
        ∀ o, s.Yields (.assignCell base index value) o ↔ o = (r, t) :=
      fun hyields o ↦ ⟨fun h ↦ h.unique hyields, fun h ↦ h ▸ hyields⟩
    by_cases hk : 0 ≤ k.toInt ∧ k.toInt < (s₃.heap.cells address).size
    · rw [if_pos hk] at hend
      have hposition : k.toInt.toNat < (s₃.heap.cells address).size := by omega
      have hsize : (s₃.heap.setCell address k.toInt.toNat m).arrays.size = s₃.heap.arrays.size :=
        Array.size_modify
      refine ⟨_, _, hunique hend, ?_⟩
      rw [if_pos hk]
      exact ⟨rfl, rfl, hsize, Heap.getElem?_cells_setCell hposition m⟩
    · rw [if_neg hk] at hend
      refine ⟨_, _, hunique hend, ?_⟩
      rw [if_neg hk]
      exact ⟨rfl, rfl⟩

/-- Two arrays, the first of them under two names. -/
def aliased : State :=
  let (first, s) := (State.fresh .standard .unlimited .silent).newArray [7, 8]
  let (second, s) := s.newArray [9]
  ((s.bind "a" first).bind "b" first).bind "c" second

/-- The index of the assignment `a[{ a = c; 1 }] = 5` binds its array to another one. -/
def rebinding : Tree :=
  .assignCell (.var "a") (.block [.assign "a" (.var "c"), .int 1]) (.int 5)

/-- The cell of the array that `a` was before is written, and an alias of it reads the new number. A
negative index fails, and in an evaluation without an assignment the arrays stay as they are. -/
theorem arrays_of_evaluate_aliased :
    (∃ t, aliased.Yields rebinding (.ok (.int 5), t) ∧ (t.heap.cells 0)[1]? = some 5 ∧
      (t.heap.cells 1)[0]? = some 9 ∧
      ∃ u, t.Yields (.access (.var "b") (.int 1)) (.ok (.int 5), u)) ∧
    (∃ f t, aliased.Yields (.assignCell (.var "a") (.int (-1)) (.int 5)) (.error f, t) ∧
      t.heap.cells 0 = #[7, 8]) ∧
    ∃ r t, aliased.Yields (.array [.int 1]) (r, t) ∧ t.heap.cells 0 = #[7, 8] := by
  obtain ⟨hkept, hcell, -⟩ := arrays_of_evaluate aliased
  refine ⟨?_, ?_, ?_⟩
  · obtain ⟨r, t, hiff, hwritten⟩ :=
      hcell (.var "a") (.block [.assign "a" (.var "c"), .int 1]) (.int 5) 0 (.int 1) 1 5 _ _ _
        ⟨2, rfl⟩ ⟨9, rfl⟩ rfl ⟨2, rfl⟩
    have halias : ∃ t, aliased.Yields rebinding (.ok (.int 5), t) ∧
        ∃ u, t.Yields (.access (.var "b") (.int 1)) (.ok (.int 5), u) :=
      ⟨_, ⟨15, rfl⟩, _, ⟨7, rfl⟩⟩
    rw [if_pos (by decide)] at hwritten
    obtain ⟨-, -, -, hcells⟩ := hwritten
    obtain ⟨u, hu, hread⟩ := halias
    obtain ⟨rfl, rfl⟩ := Prod.mk.inj ((hiff _).mp hu)
    exact ⟨u, hu, hcells 0 1, hcells 1 0, hread⟩
  · obtain ⟨r, t, hiff, hfailed⟩ :=
      hcell (.var "a") (.int (-1)) (.int 5) 0 (.int (-1)) (-1) 5 _ _ _
        ⟨2, rfl⟩ ⟨2, rfl⟩ rfl ⟨2, rfl⟩
    rw [if_neg (by decide)] at hfailed
    obtain ⟨rfl, rfl⟩ := hfailed
    exact ⟨_, _, (hiff _).mpr rfl, rfl⟩
  · refine ⟨_, _, ⟨4, rfl⟩, ?_⟩
    exact (hkept (.array [.int 1]) _ _ ⟨4, rfl⟩).2 rfl nofun 0 (by decide)

end Interpreter

end ExprLang
