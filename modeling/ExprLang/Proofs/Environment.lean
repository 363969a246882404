import ExprLang.Proofs.Scope
import ExprLang.Proofs.Text.Order
import Mathlib.Data.List.AList

/-!
Scopes whose frames are maps of a package. The package is given by its operations, of which nothing
is known but that they are those of persistent finite maps (`MapPackage.Lawful`). Tables make such a
package (`Table.package`), and an environment over tables is a scope. An environment, and a scope,
acts as a chain of finite maps (`ActsAsMaps`): of what is put into it the last value of each name
counts (`MapPackage.Lawful.get?_setAll`), and environments that stand for the same maps, be they of
one package or of two, answer alike (`Environment.answers_eq`).
-/

set_option autoImplicit false

namespace ExprLang

/-- A package of maps from names to values. Setting a name leaves the map as it was and gives
another one. -/
structure MapPackage where
  Map : Type
  empty : Map
  set : Map → String → Value → Map
  get? : Map → String → Option Value
  /-- The bound names in the order in which they are visited. -/
  keys : Map → List String

/-- What is put under a name last. -/
def lastPut (puts : List (String × Value)) (name : String) : Option Value :=
  puts.reverse.lookup name

@[simp] theorem lastPut_nil (name : String) : lastPut [] name = none := rfl

theorem lastPut_cons (put : String × Value) (puts : List (String × Value)) (name : String) :
    lastPut (put :: puts) name =
      (lastPut puts name).or (if name = put.1 then some put.2 else none) := by
  rw [lastPut, List.reverse_cons, List.lookup_append, Table.lookup_entry_cons, List.lookup_nil]
  rfl

/-- What a map answers after several puts. -/
def afterPuts (map : String → Option Value) (puts : List (String × Value)) (name : String) :
    Option Value :=
  (lastPut puts name).or (map name)

namespace MapPackage

/-- The maps are finite maps: a map answers with what was set last, and its names are visited in
some order, each once. -/
structure Lawful (P : MapPackage) : Prop where
  get?_empty (name : String) : P.get? P.empty name = none
  get?_set (m : P.Map) (name : String) (v : Value) (other : String) :
    P.get? (P.set m name v) other = if other = name then some v else P.get? m other
  mem_keys (m : P.Map) (name : String) : name ∈ P.keys m ↔ (P.get? m name).isSome = true
  nodup_keys (m : P.Map) : (P.keys m).Nodup

/-- The map after several puts, the first one first. -/
def setAll (P : MapPackage) (m : P.Map) (puts : List (String × Value)) : P.Map :=
  puts.foldl (fun m put ↦ P.set m put.1 put.2) m

/-- The bound names, sorted by their bytes. -/
def names (P : MapPackage) (m : P.Map) : List String :=
  (P.keys m).mergeSort fun a b ↦ Text.Utf8.encode a ≤ Text.Utf8.encode b

namespace Lawful

variable {P Q : MapPackage}

/-- Of all that is put, the last value of each name counts. -/
theorem get?_setAll (hP : P.Lawful) (m : P.Map) (puts : List (String × Value)) (name : String) :
    P.get? (P.setAll m puts) name = afterPuts (P.get? m) puts name := by
  induction puts generalizing m with
  | nil => rfl
  | cons put puts ih =>
    change P.get? (P.setAll (P.set m put.1 put.2) puts) name = _
    -- The first put counts where the later ones have nothing.
    rw [ih, afterPuts, afterPuts, hP.get?_set, lastPut_cons, Option.or_assoc]
    split_ifs <;> rfl

theorem mem_names (hP : P.Lawful) (m : P.Map) (name : String) :
    name ∈ P.names m ↔ (P.get? m name).isSome = true := by
  rw [names, List.mem_mergeSort, hP.mem_keys]

/-- The names are in order, each of them once. -/
theorem pairwise_names (hP : P.Lawful) (m : P.Map) : (P.names m).Pairwise (· < ·) := by
  have hle : ∀ a b : String, Text.Utf8.encode a ≤ Text.Utf8.encode b ↔ a ≤ b := fun a b ↦
    not_congr Text.Utf8.encode_lt_encode_iff
  have hsorted : (P.names m).Pairwise (· ≤ ·) := by
    refine (List.pairwise_mergeSort ?_ ?_ (P.keys m)).imp ?_
    · intro a b c hab hbc
      simp only [decide_eq_true_eq, hle] at *
      exact String.le_trans hab hbc
    · intro a b
      simp only [Bool.or_eq_true, decide_eq_true_eq, hle]
      exact String.le_total a b
    · intro a b hab
      simpa only [decide_eq_true_eq, hle] using hab
  -- A sorted list may still repeat an entry; that none is repeated comes from the keys.
  have hnodup : (P.names m).Nodup := (List.mergeSort_perm _ _).nodup_iff.mpr (hP.nodup_keys m)
  refine hsorted.imp₂ (fun a b hab hne ↦ ?_) hnodup
  by_contra hnot
  exact hne (String.le_antisymm hab hnot)

/-- The sorted names are settled by which names are bound. -/
theorem names_eq_of_mem_iff (hP : P.Lawful) {m : P.Map} {names : List String}
    (hnames : names.Pairwise (· < ·))
    (h : ∀ name, name ∈ names ↔ (P.get? m name).isSome = true) : P.names m = names := by
  have hascending := hP.pairwise_names m
  have hperm : (P.names m).Perm names := by
    refine (List.perm_ext_iff_of_nodup hascending.nodup hnames.nodup).mpr fun name ↦ ?_
    rw [hP.mem_names, h]
  refine hperm.eq_of_pairwise (fun a b _ _ hless hgreater ↦ ?_) hascending hnames
  exact absurd hgreater (String.lt_asymm hless)

theorem names_eq (hP : P.Lawful) (hQ : Q.Lawful) {m : P.Map} {n : Q.Map}
    (h : ∀ name, P.get? m name = Q.get? n name) : P.names m = Q.names n :=
  hP.names_eq_of_mem_iff (hQ.pairwise_names n) fun name ↦ by rw [hQ.mem_names, h]

end Lawful

/-- What a map holds, in the order in which it is visited. -/
def entries (P : MapPackage) (m : P.Map) : List (String × Value) :=
  (P.keys m).filterMap fun name ↦ (P.get? m name).map (name, ·)

theorem lookup_filterMap (find? : String → Option Value) (names : List String) (name : String) :
    (names.filterMap fun name ↦ (find? name).map (name, ·)).lookup name =
      if name ∈ names then find? name else none := by
  induction names with
  | nil => rfl
  | cons key names ih =>
    rw [List.filterMap_cons]
    by_cases hkey : name = key
    · subst hkey
      cases hfind : find? name with
      | none => simp [ih, hfind]
      | some v => simp
    · cases find? key with
      | none => simp [ih, hkey]
      | some v => simp [ih, hkey, Table.lookup_entry_cons]

theorem Lawful.lastPut_entries {P : MapPackage} (hP : P.Lawful) (m : P.Map) (name : String) :
    lastPut (P.entries m) name = P.get? m name := by
  rw [lastPut, entries, ← List.filterMap_reverse, lookup_filterMap]
  simp only [List.mem_reverse, hP.mem_keys]
  cases P.get? m name <;> rfl

/-- The map of another package that is filled with what `m` holds. -/
def translate (P Q : MapPackage) (m : P.Map) : Q.Map := Q.setAll Q.empty (P.entries m)

theorem Lawful.get?_translate {P Q : MapPackage} (hP : P.Lawful) (hQ : Q.Lawful) (m : P.Map)
    (name : String) : Q.get? (P.translate Q m) name = P.get? m name := by
  rw [translate, hQ.get?_setAll, afterPuts, hQ.get?_empty, Option.or_none, hP.lastPut_entries]

end MapPackage

/-- The tables as a package. -/
def Table.package : MapPackage where
  Map := Table Value
  empty := Table.empty
  set := Table.insert
  get? := Table.get?
  keys := Table.names

theorem Table.mem_names {α : Type} (t : Table α) (name : String) :
    name ∈ t.names ↔ (t.get? name).isSome = true := by
  rw [names, List.mem_map, Option.isSome_iff_exists]
  constructor
  · rintro ⟨⟨_, v⟩, hmem, rfl⟩
    exact ⟨v, (t.mem_entries_iff _ v).mp hmem⟩
  · rintro ⟨v, hv⟩
    exact ⟨(name, v), (t.mem_entries_iff name v).mpr hv, rfl⟩

theorem Table.pairwise_names {α : Type} (t : Table α) : t.names.Pairwise (· < ·) :=
  List.pairwise_map.mpr t.sorted

theorem Table.package_lawful : Table.package.Lawful where
  get?_empty _ := rfl
  get?_set := Table.get?_insert
  mem_keys := Table.mem_names
  nodup_keys t := (Table.pairwise_names t).nodup

/-- The names of a table need not be sorted. -/
theorem Table.package_names (t : Table Value) : Table.package.names t = t.names :=
  Table.package_lawful.names_eq_of_mem_iff t.pairwise_names t.mem_names

/-- What is answered to questions about names. -/
structure Answers where
  get : String → Except Fault Value
  contains : String → Bool
  containsLocal : String → Bool
  names : List String
  text : String

/-- The answers after any puts are those of a chain of finite maps, into the first of which it is
put. -/
structure ActsAsMaps (frame : String → Option Value) (enclosing : List (String → Option Value))
    (after : List (String × Value) → Answers) : Prop where
  /-- Puts that leave each name the same last value come to the same. -/
  last ps qs : (∀ name, afterPuts frame ps name = afterPuts frame qs name) → after ps = after qs
  ascending ps : (after ps).names.Pairwise fun a b ↦ Text.Utf8.encode a < Text.Utf8.encode b
  mem_names ps name : name ∈ (after ps).names ↔ (afterPuts frame ps name).isSome = true
  containsLocal ps name : (after ps).containsLocal name = (afterPuts frame ps name).isSome
  contains ps name : (∃ v, (after ps).get name = .ok v) ↔ (after ps).contains name = true
  /-- What is found is the binding of the innermost frame that has the name. -/
  innermost ps name v : (after ps).get name = .ok v ↔ ∃ outer map inner,
    afterPuts frame ps :: enclosing = outer ++ map :: inner ∧
      map name = some v ∧ ∀ m ∈ outer, m name = none
  /-- The text lists the names in their order, and nothing else in it comes of the puts. -/
  text : ∃ rest, ∀ ps, (after ps).text =
    "Environment\x7bvariables=[" ++ ", ".intercalate (after ps).names ++ "]" ++ rest

namespace Scope

variable (s : Scope)

/-- The scope after several puts, the first one first. -/
def puts (puts : List (String × Value)) : Scope := puts.foldl (fun s put ↦ s.put put.1 put.2) s

def answers : Answers where
  get := s.get
  contains := s.contains
  containsLocal := s.containsLocal
  names := s.names
  text := s.text

end Scope

/-- A chain of frames whose maps are those of a package. -/
structure Environment (P : MapPackage) where
  vars : P.Map
  /-- The maps of the enclosing frames, the nearest first. -/
  parents : List P.Map

namespace Environment

variable {P Q : MapPackage}

/-- A single empty frame. -/
def empty (P : MapPackage) : Environment P := ⟨P.empty, []⟩

section Operations

variable (e : Environment P)

def frames : List P.Map := e.vars :: e.parents

def find? (name : String) : Option Value := e.frames.findSome? (P.get? · name)

def get (name : String) : Except Fault Value :=
  match e.find? name with
  | some v => .ok v
  | none => .error (.runtime (.undefinedVariable name))

def put (name : String) (v : Value) : Environment P := { e with vars := P.set e.vars name v }

/-- An empty frame inside `e`. -/
def child : Environment P := ⟨P.empty, e.frames⟩

def containsLocal (name : String) : Bool := (P.get? e.vars name).isSome

def contains (name : String) : Bool := e.frames.any fun m ↦ (P.get? m name).isSome

def names : List String := P.names e.vars

def framesText (P : MapPackage) : List P.Map → String
  | [] => ""
  | m :: rest =>
    "Environment\x7bvariables=[" ++ ", ".intercalate (P.names m) ++ "]" ++
      (if rest.isEmpty then "" else ", parent=" ++ framesText P rest) ++ "\x7d"

def text : String := framesText P e.frames

def answers : Answers where
  get := e.get
  contains := e.contains
  containsLocal := e.containsLocal
  names := e.names
  text := e.text

/-- The environment after several puts, the first one first. -/
def puts (puts : List (String × Value)) : Environment P :=
  puts.foldl (fun e put ↦ e.put put.1 put.2) e

/-- What the frames stand for, the current one first. -/
def maps : List (String → Option Value) := e.frames.map P.get?

end Operations

theorem framesText_cons (m : P.Map) (rest : List P.Map) :
    framesText P (m :: rest) =
      "Environment\x7bvariables=[" ++ ", ".intercalate (P.names m) ++ "]" ++
        (if rest.isEmpty then "" else ", parent=" ++ framesText P rest) ++ "\x7d" :=
  rfl

theorem framesText_eq (hP : P.Lawful) (hQ : Q.Lawful) {ms : List P.Map} {ns : List Q.Map}
    (h : ms.map P.get? = ns.map Q.get?) : framesText P ms = framesText Q ns := by
  induction ms generalizing ns with
  | nil =>
    rw [List.map_eq_nil_iff.mp h.symm]
    rfl
  | cons m ms ih =>
    obtain ⟨n, ns, rfl⟩ : ∃ n rest, ns = n :: rest := by
      cases ns with
      | nil => contradiction
      | cons n ns => exact ⟨n, ns, rfl⟩
    obtain ⟨hmap, hrest⟩ := List.cons.inj h
    have hempty : ms.isEmpty = ns.isEmpty := by
      rw [← List.isEmpty_map (f := P.get?), hrest, List.isEmpty_map]
    rw [framesText_cons, framesText_cons, hP.names_eq hQ (congrFun hmap), ih hrest, hempty]

theorem find?_eq_maps (e : Environment P) (name : String) :
    e.find? name = e.maps.findSome? (· name) := by
  rw [maps, List.findSome?_map]
  rfl

theorem contains_eq_isSome (e : Environment P) (name : String) :
    e.contains name = (e.find? name).isSome :=
  List.isSome_findSome?.symm

theorem get_eq_ok_iff (e : Environment P) (name : String) (v : Value) :
    e.get name = .ok v ↔ e.find? name = some v := by
  unfold get
  cases e.find? name <;> simp

/-- Environments that stand for the same maps answer alike. -/
theorem answers_eq (hP : P.Lawful) (hQ : Q.Lawful) {e : Environment P} {f : Environment Q}
    (h : e.maps = f.maps) : e.answers = f.answers := by
  have hvars : P.get? e.vars = Q.get? f.vars := (List.cons.inj h).1
  have hfind : e.find? = f.find? := by
    funext name
    rw [find?_eq_maps, find?_eq_maps, h]
  have hget : e.get = f.get := by
    funext name
    rw [get, get, hfind]
  have hcontains : e.contains = f.contains := by
    funext name
    rw [contains_eq_isSome, contains_eq_isSome, hfind]
  have hlocal : e.containsLocal = f.containsLocal := by
    funext name
    rw [containsLocal, containsLocal, hvars]
  have hnames : e.names = f.names := hP.names_eq hQ (congrFun hvars)
  have htext : e.text = f.text := framesText_eq hP hQ h
  rw [answers, answers, hget, hcontains, hlocal, hnames, htext]

theorem puts_eq (e : Environment P) (puts : List (String × Value)) :
    e.puts puts = { e with vars := P.setAll e.vars puts } := by
  induction puts generalizing e with
  | nil => rfl
  | cons put puts ih => exact ih _

theorem maps_puts (hP : P.Lawful) (e : Environment P) (puts : List (String × Value)) :
    (e.puts puts).maps = afterPuts (P.get? e.vars) puts :: e.parents.map P.get? := by
  rw [puts_eq]
  refine congrArg (· :: _) ?_
  funext name
  exact hP.get?_setAll e.vars puts name

theorem actsAsMaps_answers (hP : P.Lawful) (e : Environment P) :
    ActsAsMaps (P.get? e.vars) (e.parents.map P.get?) fun ps ↦ (e.puts ps).answers := by
  have hlocal : ∀ ps name, P.get? (e.puts ps).vars name = afterPuts (P.get? e.vars) ps name := by
    intro ps name
    rw [puts_eq, hP.get?_setAll]
  constructor
  case last =>
    intro ps qs hlast
    refine answers_eq hP hP ?_
    rw [maps_puts hP, maps_puts hP, funext hlast]
  case ascending => exact fun ps ↦ (hP.pairwise_names _).imp Text.Utf8.encode_lt_encode
  case mem_names =>
    intro ps name
    rw [← hlocal]
    exact hP.mem_names _ name
  case containsLocal =>
    intro ps name
    rw [← hlocal]
    rfl
  case contains =>
    intro ps name
    change (∃ v, (e.puts ps).get name = .ok v) ↔ (e.puts ps).contains name = true
    simp only [get_eq_ok_iff, contains_eq_isSome, Option.isSome_iff_exists]
  case innermost =>
    intro ps name v
    change (e.puts ps).get name = .ok v ↔ _
    rw [get_eq_ok_iff, find?_eq_maps, maps_puts hP, List.findSome?_eq_some_iff]
  case text =>
    refine ⟨(if e.parents.isEmpty then "" else ", parent=" ++ framesText P e.parents) ++ "\x7d",
      fun ps ↦ ?_⟩
    have hparents : (e.puts ps).parents = e.parents := by rw [puts_eq]
    change framesText P ((e.puts ps).vars :: (e.puts ps).parents) = _
    rw [hparents, framesText_cons, String.append_assoc]
    rfl

/-! ### Scopes -/

/-- The scope that an environment over tables is. -/
def scope (e : Environment Table.package) : Scope := ⟨e.vars, e.parents⟩

theorem scope_puts (e : Environment Table.package) (puts : List (String × Value)) :
    (e.puts puts).scope = e.scope.puts puts := by
  induction puts generalizing e with
  | nil => rfl
  | cons put puts ih => exact ih _

theorem framesText_tables (ts : List Frame) :
    framesText Table.package ts = Scope.framesText ts := by
  induction ts with
  | nil => rfl
  | cons t ts ih =>
    refine (framesText_cons (P := Table.package) t ts).trans ?_
    rw [Scope.framesText_cons, Table.package_names, ih]
    rfl

theorem answers_scope (e : Environment Table.package) : e.scope.answers = e.answers := by
  have hnames : e.scope.names = e.names := (Table.package_names e.vars).symm
  have htext : e.scope.text = e.text := (framesText_tables _).symm
  rw [Scope.answers, hnames, htext]
  rfl

/-- The environment with its frames in maps of another package. -/
def translate (e : Environment P) (Q : MapPackage) : Environment Q :=
  ⟨P.translate Q e.vars, e.parents.map (P.translate Q)⟩

theorem maps_translate (hP : P.Lawful) (hQ : Q.Lawful) (e : Environment P) :
    (e.translate Q).maps = e.maps := by
  have hmap : ∀ m, Q.get? (P.translate Q m) = P.get? m := fun m ↦
    funext fun name ↦ hP.get?_translate hQ m name
  change (e.frames.map (P.translate Q)).map Q.get? = e.frames.map P.get?
  rw [List.map_map]
  exact List.map_congr_left fun m _ ↦ hmap m

theorem answers_puts_translate (hP : P.Lawful) (hQ : Q.Lawful) (e : Environment P)
    (puts : List (String × Value)) :
    ((e.translate Q).puts puts).answers = (e.puts puts).answers := by
  have hmaps := maps_translate hP hQ e
  obtain ⟨hvars, hparents⟩ := List.cons.inj hmaps
  refine answers_eq hQ hP ?_
  rw [maps_puts hQ, maps_puts hP, hvars, hparents]

/-- Frames are finite maps, whatever the order in which they were filled. This goes for scopes and
for the environments over any package of finite maps, each of which answers like some scope. -/
theorem acts_as_maps (hP : P.Lawful) :
    (∀ s : Scope, ActsAsMaps s.frame.get? (s.parents.map Table.get?) fun ps ↦
      (s.puts ps).answers) ∧
    (∀ e : Environment P, ActsAsMaps (P.get? e.vars) (e.parents.map P.get?) fun ps ↦
      (e.puts ps).answers) ∧
    ∀ e : Environment P, ∃ s : Scope, ∀ ps, (s.puts ps).answers = (e.puts ps).answers := by
  refine ⟨fun s ↦ ?_, actsAsMaps_answers hP, fun e ↦ ?_⟩
  · have hacts := actsAsMaps_answers Table.package_lawful ⟨s.frame, s.parents⟩
    simp only [← answers_scope, scope_puts] at hacts
    exact hacts
  · refine ⟨(e.translate Table.package).scope, fun ps ↦ ?_⟩
    rw [← scope_puts, answers_scope, answers_puts_translate hP Table.package_lawful]

/-- Association lists as a package. A name that is set comes to the front. -/
def associationLists : MapPackage where
  Map := AList fun _ : String ↦ Value
  empty := ∅
  set m name v := m.insert name v
  get? m name := m.lookup name
  keys := AList.keys

theorem associationLists_lawful : associationLists.Lawful where
  get?_empty := AList.lookup_empty
  get?_set := by
    intro (m : AList _) name v other
    change (m.insert name v).lookup other = if other = name then some v else m.lookup other
    split_ifs with h
    · rw [h, AList.lookup_insert]
    · rw [AList.lookup_insert_ne h]
  mem_keys _ _ := AList.mem_keys.symm.trans AList.lookup_isSome.symm
  nodup_keys := AList.keys_nodup

/-- A name is put twice into a frame that hides another binding of it. -/
theorem acts_as_maps_hidden :
    associationLists.Lawful ∧
    (((empty associationLists).put "é" .void).child.puts
        [("é", .int 1), ("z", .int 2), ("é", .int 3)]).answers =
      (((empty associationLists).put "é" .void).child.puts
        [("é", .int 3), ("z", .int 2)]).answers := by
  refine ⟨associationLists_lawful, ?_⟩
  refine ((acts_as_maps associationLists_lawful).2.1 _).last _ _ fun name ↦ ?_
  have hlast : lastPut [("é", .int 1), ("z", .int 2), ("é", .int 3)] name =
      lastPut [("é", .int 3), ("z", .int 2)] name := by
    simp only [lastPut_cons, lastPut_nil]
    by_cases h : name = "é" <;> simp [h]
  rw [afterPuts, afterPuts, hlast]

end Environment

end ExprLang
