/-!
Tables: finite maps from names, kept in strictly increasing order of the names. Two tables with the
same entries are the same table, whatever the order in which they were filled.
-/

set_option autoImplicit false

namespace ExprLang

structure Table (α : Type) where
  entries : List (String × α)
  sorted : entries.Pairwise fun a b ↦ a.1 < b.1

namespace Table

variable {α : Type}

def empty : Table α := ⟨[], List.Pairwise.nil⟩

instance : Inhabited (Table α) := ⟨empty⟩

/-- The entries with `name` bound to `value`. -/
def insertEntry (name : String) (value : α) : List (String × α) → List (String × α)
  | [] => [(name, value)]
  | (key, old) :: rest =>
    if name = key then (name, value) :: rest
    else if name < key then (name, value) :: (key, old) :: rest
    else (key, old) :: insertEntry name value rest

theorem mem_insertEntry {name : String} {value : α} {entries : List (String × α)}
    {entry : String × α} (h : entry ∈ insertEntry name value entries) :
    entry = (name, value) ∨ entry ∈ entries := by
  induction entries with
  | nil => exact .inl (List.mem_singleton.mp h)
  | cons head rest ih =>
    unfold insertEntry at h
    split at h
    · exact (List.mem_cons.mp h).imp id (List.mem_cons_of_mem _)
    · split at h
      · exact List.mem_cons.mp h
      · rcases List.mem_cons.mp h with h | h
        · exact .inr (h ▸ List.mem_cons_self)
        · exact (ih h).imp id (List.mem_cons_of_mem _)

theorem sorted_insertEntry (name : String) (value : α) {entries : List (String × α)}
    (h : entries.Pairwise fun a b ↦ a.1 < b.1) :
    (insertEntry name value entries).Pairwise fun a b ↦ a.1 < b.1 := by
  induction entries with
  | nil => exact List.pairwise_singleton _ _
  | cons head rest ih =>
    obtain ⟨below, tail⟩ := List.pairwise_cons.mp h
    unfold insertEntry
    split
    · rename_i same
      exact List.pairwise_cons.mpr ⟨fun entry mem ↦ same ▸ below entry mem, tail⟩
    · rename_i differ
      split
      · rename_i less
        refine List.pairwise_cons.mpr ⟨fun entry mem ↦ ?_, h⟩
        rcases List.mem_cons.mp mem with mem | mem
        · exact mem ▸ less
        · exact String.lt_trans less (below entry mem)
      · rename_i notLess
        refine List.pairwise_cons.mpr ⟨fun entry mem ↦ ?_, ih tail⟩
        rcases mem_insertEntry mem with mem | mem
        · subst mem
          exact Decidable.byContradiction fun notGreater ↦
            differ (String.le_antisymm notGreater notLess)
        · exact below entry mem

/-- The table with `name` bound to `value`, in place of what it was bound to. -/
def insert (t : Table α) (name : String) (value : α) : Table α :=
  ⟨insertEntry name value t.entries, sorted_insertEntry name value t.sorted⟩

def get? (t : Table α) (name : String) : Option α := t.entries.lookup name

def contains (t : Table α) (name : String) : Bool := (t.get? name).isSome

/-- The bound names in increasing order. -/
def names (t : Table α) : List String := t.entries.map Prod.fst

end Table

end ExprLang
