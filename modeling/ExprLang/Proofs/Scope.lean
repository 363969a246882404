import ExprLang.Scope
import Mathlib.Data.List.Basic
import Mathlib.Data.List.Forall2

/-!
Tables and scopes as maps. A table answers with what was inserted last under a name
(`get?_insert`), and its answers are all there is to it (`ext_get?`). A scope that comes from
another by binding some names (`Rebinds`) has the same enclosing frames, keeps every name bound, and
differs in the other names not at all. Two scopes whose frames differ in some names only (`Alike`)
stay so as long as both are used alike.
-/

set_option autoImplicit false

namespace ExprLang

namespace Table

variable {α : Type}

theorem lookup_entry_cons (key : String) (value : α) (rest : List (String × α)) (name : String) :
    ((key, value) :: rest).lookup name = if name = key then some value else rest.lookup name := by
  by_cases h : name = key
  · subst h
    simp
  · rw [List.lookup_cons, beq_eq_false_iff_ne.mpr h, if_neg h]

theorem lookup_insertEntry (name : String) (value : α) (entries : List (String × α))
    (other : String) : (insertEntry name value entries).lookup other =
      if other = name then some value else entries.lookup other := by
  induction entries with
  | nil => exact lookup_entry_cons name value [] other
  | cons entry rest ih =>
    obtain ⟨key, old⟩ := entry
    simp only [insertEntry]
    by_cases hkey : name = key
    · subst hkey
      rw [if_pos rfl, lookup_entry_cons, lookup_entry_cons]
      split_ifs <;> rfl
    · rw [if_neg hkey]
      by_cases hless : name < key
      · rw [if_pos hless, lookup_entry_cons]
      · rw [if_neg hless, lookup_entry_cons, lookup_entry_cons, ih]
        -- The two tests are of different names, so at most one of them holds.
        by_cases hother : other = name
        · simp [hother, hkey]
        · simp [hother]

/-- A table answers with what was inserted last. -/
theorem get?_insert (t : Table α) (name : String) (value : α) (other : String) :
    (t.insert name value).get? other = if other = name then some value else t.get? other :=
  lookup_insertEntry name value t.entries other

/-- The entries of a table are its answers. -/
theorem mem_entries_iff (t : Table α) (name : String) (value : α) :
    (name, value) ∈ t.entries ↔ t.get? name = some value := by
  obtain ⟨entries, hsorted⟩ := t
  change _ ↔ entries.lookup name = some value
  induction entries with
  | nil => simp
  | cons entry rest ih =>
    obtain ⟨key, old⟩ := entry
    obtain ⟨hbelow, hrest⟩ := List.pairwise_cons.mp hsorted
    rw [List.mem_cons, lookup_entry_cons, ih hrest]
    by_cases hkey : name = key
    · subst hkey
      have habsent : rest.lookup name ≠ some value := by
        intro hsome
        exact String.lt_irrefl name (hbelow _ ((ih hrest).mpr hsome))
      simp [habsent, eq_comm]
    · simp [hkey]

/-- Tables that give the same answers are the same. -/
theorem ext_get? {t u : Table α} (h : ∀ name, t.get? name = u.get? name) : t = u := by
  have hnodup : ∀ table : Table α, table.entries.Nodup := by
    intro table
    refine table.sorted.imp ?_
    rintro a _ hless rfl
    exact String.lt_irrefl _ hless
  have hperm : t.entries.Perm u.entries := by
    refine (List.perm_ext_iff_of_nodup (hnodup t) (hnodup u)).mpr ?_
    rintro ⟨name, value⟩
    rw [mem_entries_iff, mem_entries_iff, h]
  have hentries : t.entries = u.entries := by
    refine hperm.eq_of_pairwise (fun a b _ _ hless hgreater ↦ ?_) t.sorted u.sorted
    exact absurd (String.lt_trans hless hgreater) (String.lt_irrefl _)
  cases t
  cases u
  subst hentries
  rfl

/-- The tables give the same answers, except perhaps under some names. -/
def Alike (names : String → Bool) (t u : Table α) : Prop :=
  ∀ name, names name = false → t.get? name = u.get? name

theorem Alike.refl (names : String → Bool) (t : Table α) : t.Alike names t := fun _ _ ↦ rfl

theorem Alike.insert {names : String → Bool} {t u : Table α} (h : t.Alike names u) (name : String)
    (value : α) : (t.insert name value).Alike names (u.insert name value) := by
  intro other hother
  rw [get?_insert, get?_insert, h other hother]

/-- A name under which the tables may differ can be bound in one of them. -/
theorem Alike.insert_right {names : String → Bool} {t u : Table α} (h : t.Alike names u)
    {name : String} (hname : names name = true) (value : α) :
    t.Alike names (u.insert name value) := by
  intro other hother
  have hne : other ≠ name := by
    rintro rfl
    rw [hname] at hother
    contradiction
  rw [get?_insert, if_neg hne, h other hother]

/-- The table with every value replaced by its image. -/
def map {β : Type} (f : α → β) (t : Table α) : Table β :=
  ⟨t.entries.map fun entry ↦ (entry.1, f entry.2), List.pairwise_map.mpr t.sorted⟩

section Map

variable {β : Type} (f : α → β)

theorem get?_map (t : Table α) (name : String) : (t.map f).get? name = (t.get? name).map f := by
  obtain ⟨entries, hsorted⟩ := t
  change (entries.map fun entry ↦ (entry.1, f entry.2)).lookup name = (entries.lookup name).map f
  clear hsorted
  induction entries with
  | nil => rfl
  | cons entry rest ih =>
    obtain ⟨key, value⟩ := entry
    rw [List.map_cons, lookup_entry_cons, lookup_entry_cons, ih]
    split_ifs <;> rfl

theorem insert_map (t : Table α) (name : String) (value : α) :
    (t.map f).insert name (f value) = (t.insert name value).map f := by
  refine ext_get? fun other ↦ ?_
  rw [get?_insert, get?_map, get?_map, get?_insert]
  split_ifs <;> rfl

theorem names_map (t : Table α) : (t.map f).names = t.names := by
  simp [map, names]

theorem contains_map (t : Table α) (name : String) : (t.map f).contains name = t.contains name := by
  rw [contains, get?_map, Option.isSome_map, contains]

end Map

end Table

namespace Scope

/-- The scope `t` comes from `s` by binding names from a list, each any number of times. -/
inductive Rebinds (names : List String) (s : Scope) : Scope → Prop
  | refl : Rebinds names s s
  | put {t : Scope} {name : String} (h : Rebinds names s t) (hname : name ∈ names) (v : Value) :
      Rebinds names s (t.put name v)

namespace Rebinds

variable {names : List String} {s t : Scope}

theorem mono {more : List String} (h : Rebinds names s t) (hsubset : names ⊆ more) :
    Rebinds more s t := by
  induction h with
  | refl => exact refl
  | put _ hname v ih => exact ih.put (hsubset hname) v

theorem trans {u : Scope} (h : Rebinds names s t) (hu : Rebinds names t u) : Rebinds names s u := by
  induction hu with
  | refl => exact h
  | put _ hname v ih => exact ih.put hname v

theorem parents_eq (h : Rebinds names s t) : t.parents = s.parents := by
  induction h with
  | refl => rfl
  | put _ _ _ ih => exact ih

/-- Only the listed names can have changed. -/
theorem get?_eq (h : Rebinds names s t) {name : String} (hname : name ∉ names) :
    t.frame.get? name = s.frame.get? name := by
  induction h with
  | refl => rfl
  | put _ hother _ ih =>
    have hne : name ≠ _ := fun heq ↦ hname (heq ▸ hother)
    rw [Scope.put, Table.get?_insert, if_neg hne, ih]

/-- No name is unbound. -/
theorem containsLocal (h : Rebinds names s t) {name : String}
    (hname : s.containsLocal name = true) : t.containsLocal name = true := by
  induction h with
  | refl => exact hname
  | put _ _ _ ih =>
    simp only [Scope.containsLocal, Scope.put, Table.contains, Table.get?_insert] at ih ⊢
    split_ifs
    · rfl
    · exact ih

/-- Where no name may be bound, nothing changes. -/
theorem eq_of_nil (h : Rebinds [] s t) : t = s := by
  cases h with
  | refl => rfl
  | put _ hname _ => contradiction

end Rebinds

/-- The frames of the scopes differ in some names at most, each from the one at its place. -/
def Alike (names : String → Bool) (s t : Scope) : Prop :=
  List.Forall₂ (Table.Alike names) s.frames t.frames

namespace Alike

variable {names : String → Bool} {s t : Scope}

theorem refl (names : String → Bool) (s : Scope) : s.Alike names s :=
  List.forall₂_same.mpr fun frame _ ↦ .refl names frame

theorem put (h : s.Alike names t) (name : String) (v : Value) :
    (s.put name v).Alike names (t.put name v) := by
  obtain ⟨hframe, hparents⟩ := List.forall₂_cons.mp h
  exact .cons (hframe.insert name v) hparents

theorem child (h : s.Alike names t) : s.child.Alike names t.child := .cons (.refl names _) h

/-- Where the scopes may not differ, a name means the same. -/
theorem get (h : s.Alike names t) {name : String} (hname : names name = false) :
    s.get name = t.get name := by
  have hfind : s.find? name = t.find? name := by
    unfold Scope.Alike at h
    unfold Scope.find?
    generalize s.frames = frames, t.frames = others at h
    induction h with
    | nil => rfl
    | cons hframe _ ih => rw [List.findSome?_cons, List.findSome?_cons, hframe name hname, ih]
  rw [Scope.get, Scope.get, hfind]

/-- Scopes that may not differ at all are the same. -/
theorem eq (h : s.Alike (fun _ ↦ false) t) : s = t := by
  have hframes : s.frames = t.frames := by
    have hequal : List.Forall₂ Eq s.frames t.frames :=
      h.imp fun _ _ hframe ↦ Table.ext_get? fun name ↦ hframe name rfl
    rwa [List.forall₂_eq_eq_eq] at hequal
  cases s
  cases t
  cases hframes
  rfl

end Alike

/-- The scope with every value replaced by its image. -/
def map (f : Value → Value) (s : Scope) : Scope :=
  ⟨s.frame.map f, s.parents.map (Table.map f)⟩

section Map

variable (f : Value → Value) (s : Scope)

theorem get_map (name : String) : (s.map f).get name = (s.get name).map f := by
  have hfind : (s.map f).find? name = (s.find? name).map f := by
    change (s.frames.map (Table.map f)).findSome? _ = (s.frames.findSome? _).map f
    generalize s.frames = frames
    induction frames with
    | nil => rfl
    | cons frame rest ih =>
      rw [List.map_cons, List.findSome?_cons, List.findSome?_cons, Table.get?_map, ih]
      cases frame.get? name <;> rfl
  rw [Scope.get, Scope.get, hfind]
  cases s.find? name <;> rfl

theorem put_map (name : String) (v : Value) :
    (s.map f).put name (f v) = (s.put name v).map f := by
  simp [Scope.put, Scope.map, Table.insert_map]

theorem child_map : (s.map f).child = s.child.map f := rfl

theorem names_map : (s.map f).names = s.names := Table.names_map f s.frame

theorem containsLocal_map (name : String) :
    (s.map f).containsLocal name = s.containsLocal name :=
  Table.contains_map f s.frame name

theorem contains_map (name : String) : (s.map f).contains name = s.contains name := by
  have hframes : (s.map f).frames = s.frames.map (Table.map f) := rfl
  rw [Scope.contains, Scope.contains, hframes, List.any_map]
  simp only [Function.comp_def, Table.contains_map]

theorem framesText_cons (frame : Frame) (rest : List Frame) : framesText (frame :: rest) =
    "Environment\x7bvariables=[" ++ ", ".intercalate frame.names ++ "]" ++
      (if rest.isEmpty then "" else ", parent=" ++ framesText rest) ++ "\x7d" :=
  rfl

theorem text_map : (s.map f).text = s.text := by
  change framesText (s.frames.map (Table.map f)) = framesText s.frames
  generalize s.frames = frames
  induction frames with
  | nil => rfl
  | cons frame rest ih =>
    rw [List.map_cons, framesText_cons, framesText_cons, Table.names_map, List.isEmpty_map, ih]

end Map

end Scope

end ExprLang
