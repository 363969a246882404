import ExprLang.Proofs.Yaml.Mappings
import ExprLang.Yaml.Reader

/-!
Nodes from lexemes. `Read.Gets` says what is read when certain lexemes are ahead; each part of a
block mapping has one lemma about it, up to the whole mapping (`Read.gets_mapping`) and the root of
a document (`Read.gets_root`).
-/

set_option autoImplicit false

namespace ExprLang.Yaml

namespace Read

variable {α β : Type} {lexeme : Lexeme} {ahead mid rest : List Lexeme}

/-- With these lexemes ahead something is read that `holds`, and `rest` is ahead then. No node gets
a name. -/
def Gets (m : Read α) (ahead rest : List Lexeme) (holds : α → Prop) : Prop :=
  ∀ r : Reader, Queue.Gives ahead r.queue → ∃ a r', m r = some (a, r') ∧ holds a ∧
    Queue.Gives rest r'.queue ∧ r'.anchors = r.anchors

theorem gets_pure {holds : α → Prop} {a : α} (h : holds a) : Gets (pure a) ahead ahead holds :=
  fun r hr ↦ ⟨a, r, rfl, h, hr, rfl⟩

theorem Gets.bind {m : Read α} {next : α → Read β} {holds : α → Prop} {holds' : β → Prop}
    (h : Gets m ahead mid holds) (hnext : ∀ a, holds a → Gets (next a) mid rest holds') :
    Gets (m >>= next) ahead rest holds' := by
  intro r hr
  obtain ⟨a, r₁, hm, ha, hr₁, hanchors₁⟩ := h r hr
  obtain ⟨b, r₂, hb, hholds, hr₂, hanchors₂⟩ := hnext a ha r₁ hr₁
  refine ⟨b, r₂, ?_, hholds, hr₂, hanchors₂.trans hanchors₁⟩
  show (m r).bind _ = _
  rw [hm]
  exact hb

theorem Gets.imp {m : Read α} {holds holds' : α → Prop} (h : Gets m ahead rest holds)
    (himp : ∀ a, holds a → holds' a) : Gets m ahead rest holds' := by
  intro r hr
  obtain ⟨a, r', hm, ha, hr'⟩ := h r hr
  exact ⟨a, r', hm, himp a ha, hr'⟩

theorem gets_peek : Gets peek (lexeme :: rest) (lexeme :: rest) (·.lexeme = lexeme) := by
  rintro r ⟨t, q, hpeek, hagain, hlexeme, hrest⟩
  refine ⟨t, { r with queue := q }, ?_, hlexeme, ⟨t, q, hagain, hagain, hlexeme, hrest⟩, rfl⟩
  rw [peek, hpeek]
  rfl

/-- What begins with the lexeme that is taken away. -/
theorem gets_take {next : Token → Read α} (later : Token → Read α) {holds : α → Prop}
    (htake : ∀ t : Token, t.lexeme = lexeme → next t = pop >>= fun _ ↦ later t)
    (h : ∀ t : Token, t.lexeme = lexeme → Gets (later t) ahead rest holds) :
    Gets (peek >>= next) (lexeme :: ahead) rest holds := by
  rintro r ⟨t, q, hpeek, -, hlexeme, hrest⟩
  obtain ⟨a, r', hlater, hholds, hr', hanchors⟩ :=
    h t hlexeme { r with queue := q.pop } hrest
  refine ⟨a, r', ?_, hholds, hr', hanchors⟩
  have hpeek : peek r = some (t, { r with queue := q }) := by
    rw [peek, hpeek]
    rfl
  show (peek r).bind _ = _
  rw [hpeek]
  show next t _ = _
  rw [htake t hlexeme]
  exact hlater

theorem gets_accept : Gets (accept lexeme) (lexeme :: rest) rest (· = true) :=
  gets_take (fun _ ↦ return true) (fun _ ht ↦ if_pos ht) fun _ _ ↦ gets_pure rfl

theorem gets_accept_other {other : Lexeme} (h : lexeme ≠ other) :
    Gets (accept other) (lexeme :: rest) (lexeme :: rest) (· = false) := by
  refine gets_peek.bind fun t ht ↦ ?_
  rw [if_neg (by rw [ht]; exact h)]
  exact gets_pure rfl

theorem gets_sees {lexemes : List Lexeme} (h : lexeme ∉ lexemes) :
    Gets (sees lexemes) (lexeme :: rest) (lexeme :: rest) (· = false) := by
  refine gets_peek.bind fun t ht ↦ gets_pure ?_
  rw [ht]
  simpa using h

/-- The lexeme is a scalar, or a mapping starts with it. -/
def Begins : Lexeme → Prop
  | .scalar .. | .blockMappingStart => True
  | _ => False

theorem gets_properties (h : Begins lexeme) :
    Gets properties (lexeme :: rest) (lexeme :: rest) (· = (none, "")) := by
  have hanchor : Gets anchor? (lexeme :: rest) (lexeme :: rest) (· = none) := by
    refine gets_peek.bind fun t ht ↦ ?_
    rw [ht]
    cases lexeme <;> first | exact gets_pure rfl | exact h.elim
  have htag : Gets tag (lexeme :: rest) (lexeme :: rest) (· = "") := by
    refine gets_peek.bind fun t ht ↦ ?_
    rw [ht]
    cases lexeme <;> first | exact gets_pure rfl | exact h.elim
  refine hanchor.bind ?_
  rintro _ rfl
  refine htag.bind ?_
  rintro _ rfl
  refine hanchor.bind ?_
  rintro _ rfl
  exact gets_pure rfl

theorem gets_node {holds : Node → Prop} {isBlock isIndentless : Bool} {fuel : Nat}
    (h : Begins lexeme)
    (hcontent : ∀ line, Gets (content isBlock isIndentless false "" line fuel) (lexeme :: ahead)
      rest holds) :
    Gets (node isBlock isIndentless (fuel + 1)) (lexeme :: ahead) rest holds := by
  rw [node]
  refine gets_peek.bind fun t ht ↦ ?_
  rw [ht]
  have hgo : ∀ next : Option String × String → Read Node, Gets (next (none, "")) (lexeme :: ahead)
      rest holds → Gets (properties >>= next) (lexeme :: ahead) rest holds := by
    intro next hnext
    refine (gets_properties h).bind ?_
    rintro _ rfl
    exact hnext
  cases lexeme <;> first | exact hgo _ (hcontent t.line) | exact h.elim

theorem gets_content_scalar {text : String} {isPlain isBlock isIndentless : Bool} {line : Nat}
    (fuel : Nat) : Gets (content isBlock isIndentless false "" line (fuel + 1))
      (.scalar text isPlain :: rest) rest (· = .scalar text "" isPlain line) := by
  rw [content]
  refine gets_take (fun _ ↦ return .scalar text "" isPlain line) (fun t ht ↦ ?_)
    fun _ _ ↦ gets_pure rfl
  rw [ht]
  simp

theorem gets_content_mapping {holds : List (Node × Node) → Prop} {isIndentless : Bool}
    {line fuel : Nat} (h : Gets (blockEntries [] fuel) ahead rest holds) :
    Gets (content true isIndentless false "" line (fuel + 1)) (.blockMappingStart :: ahead) rest
      (∃ entries, holds entries ∧ · = .mapping entries line) := by
  rw [content]
  refine gets_take (fun _ ↦ do return .mapping (← blockEntries [] fuel) line) (fun t ht ↦ ?_) ?_
  · rw [ht]
  · intro t ht
    exact h.bind fun entries hentries ↦ gets_pure ⟨entries, hentries, rfl⟩

/-- The lexemes of a block mapping that show that a node is absent. -/
theorem Begins.not_mem (h : Begins lexeme) : lexeme ∉ [Lexeme.key, .value, .blockEnd] := by
  cases lexeme <;> first | exact h.elim | simp

theorem gets_optional {holds : Node → Prop} {fuel : Nat} (h : Begins lexeme)
    (hnode : Gets (node true true fuel) (lexeme :: ahead) rest holds) :
    Gets (optional true true [.key, .value, .blockEnd] (fuel + 1)) (lexeme :: ahead) rest
      holds := by
  rw [optional]
  refine (gets_sees h.not_mem).bind ?_
  rintro _ rfl
  exact hnode

theorem gets_value {holds : Node → Prop} {fuel : Nat} (h : Begins lexeme)
    (hnode : Gets (node true true fuel) (lexeme :: ahead) rest holds) :
    Gets (value true [.key, .value, .blockEnd] (fuel + 2)) (.value :: lexeme :: ahead) rest
      holds := by
  rw [value]
  refine gets_accept.bind ?_
  rintro _ rfl
  exact gets_optional h hnode

/-! ### Entries -/

/-- An entry of a mapping: its key, the lexemes of its value, and what that can be read as. -/
structure Entry where
  key : String
  lexemes : List Lexeme
  Shows : Node → Prop

namespace Entry

/-- The lexemes of the whole entry. -/
def spelled (e : Entry) : List Lexeme := .key :: .scalar e.key true :: .value :: e.lexemes

/-- The key and the value that the entry is read as. -/
def Matches (e : Entry) (pair : Node × Node) : Prop :=
  (∃ line, pair.1 = .scalar e.key "" true line) ∧ e.Shows pair.2

/-- The value is read as it shows, whatever follows. -/
def Reads (e : Entry) (fuel : Nat) : Prop :=
  ∃ lexeme ahead, e.lexemes = lexeme :: ahead ∧ Begins lexeme ∧
    ∀ rest, Gets (node true true fuel) (e.lexemes ++ rest) rest e.Shows

end Entry

/-- A scalar is read where a node stands. -/
theorem gets_node_scalar (text : String) (isPlain : Bool) (fuel : Nat) :
    Gets (node true true (fuel + 2)) (.scalar text isPlain :: rest) rest
      (∃ line, · = .scalar text "" isPlain line) :=
  gets_node trivial fun line ↦ (gets_content_scalar fuel).imp fun _ hn ↦ ⟨line, hn⟩

theorem gets_blockEntries {entries : List Entry} {fuel : Nat}
    (h : ∀ e ∈ entries, ∀ more, fuel ≤ more → e.Reads more) (pairs : List (Node × Node))
    (rest : List Lexeme) :
    Gets (blockEntries pairs (fuel + entries.length + 4))
      (entries.flatMap Entry.spelled ++ .blockEnd :: rest) rest
      (∃ more, List.Forall₂ Entry.Matches entries more ∧ · = pairs.reverse ++ more) := by
  induction entries generalizing pairs with
  | nil =>
    rw [blockEntries]
    refine (gets_accept_other (by simp)).bind ?_
    rintro _ rfl
    refine gets_accept.bind ?_
    rintro _ rfl
    exact gets_pure ⟨[], .nil, by simp⟩
  | cons e entries ih =>
    obtain ⟨he, hentries⟩ := List.forall_mem_cons.mp h
    obtain ⟨lexeme, ahead, hlexemes, hbegins, hnode⟩ :=
      he (fuel + entries.length + 2) (by omega)
    have hvalue := hnode (entries.flatMap Entry.spelled ++ .blockEnd :: rest)
    rw [hlexemes] at hvalue
    have hkey : ∀ rest, Gets (optional true true [.key, .value, .blockEnd]
        (fuel + entries.length + 4)) (.scalar e.key true :: rest) rest
        (∃ line, · = .scalar e.key "" true line) := fun rest ↦
      gets_optional trivial (gets_node_scalar e.key true (fuel + entries.length + 1))
    rw [List.flatMap_cons, List.append_assoc, Entry.spelled, hlexemes, List.length_cons,
      blockEntries]
    refine gets_accept.bind ?_
    rintro _ rfl
    refine (hkey _).bind fun key hkey ↦ (gets_value hbegins hvalue).bind fun value hvalue ↦ ?_
    refine (ih hentries ((key, value) :: pairs)).imp ?_
    rintro out ⟨more, hmatch, rfl⟩
    exact ⟨(key, value) :: more, .cons ⟨hkey, hvalue⟩ hmatch, by simp⟩

namespace Entry

/-- An entry with a scalar. -/
def ofScalar (key text : String) (isPlain : Bool) : Entry :=
  ⟨key, [.scalar text isPlain], (∃ line, · = .scalar text "" isPlain line)⟩

/-- An entry with a mapping. -/
def ofMapping (key : String) (entries : List Entry) : Entry :=
  ⟨key, .blockMappingStart :: entries.flatMap spelled ++ [.blockEnd],
    (∃ pairs, List.Forall₂ Matches entries pairs ∧ ∃ line, · = .mapping pairs line)⟩

theorem reads_ofScalar (key text : String) (isPlain : Bool) {fuel : Nat} (hfuel : 2 ≤ fuel) :
    (ofScalar key text isPlain).Reads fuel := by
  obtain ⟨fuel, rfl⟩ := Nat.exists_eq_add_of_le' hfuel
  exact ⟨_, [], rfl, trivial, fun rest ↦ gets_node_scalar text isPlain fuel⟩

end Entry

theorem gets_mapping {entries : List Entry} {fuel more : Nat} (isIndentless : Bool)
    (h : ∀ e ∈ entries, ∀ more, fuel ≤ more → e.Reads more)
    (hfuel : fuel + entries.length + 6 ≤ more) (rest : List Lexeme) :
    Gets (node true isIndentless more)
      (.blockMappingStart :: (entries.flatMap Entry.spelled ++ .blockEnd :: rest)) rest
      (∃ pairs, List.Forall₂ Entry.Matches entries pairs ∧ ∃ line, · = .mapping pairs line) := by
  obtain ⟨extra, rfl⟩ := Nat.exists_eq_add_of_le hfuel
  have hfuel : fuel + entries.length + 6 + extra = (fuel + extra) + entries.length + 4 + 2 := by
    omega
  have hreads : ∀ e ∈ entries, ∀ more, fuel + extra ≤ more → e.Reads more :=
    fun e he more hmore ↦ h e he more (Nat.le_trans (Nat.le_add_right fuel extra) hmore)
  rw [hfuel]
  refine gets_node trivial fun line ↦
    (gets_content_mapping (gets_blockEntries hreads [] rest)).imp ?_
  rintro n ⟨found, ⟨pairs, hmatch, hfound⟩, rfl⟩
  exact ⟨found, hfound ▸ hmatch, line, rfl⟩

theorem Entry.reads_ofMapping (key : String) {entries : List Entry} {fuel more : Nat}
    (h : ∀ e ∈ entries, ∀ more, fuel ≤ more → e.Reads more)
    (hfuel : fuel + entries.length + 6 ≤ more) : (ofMapping key entries).Reads more := by
  refine ⟨_, _, rfl, trivial, fun rest ↦ ?_⟩
  have hmapping := gets_mapping true h hfuel rest
  have hlexemes : (ofMapping key entries).lexemes ++ rest =
      .blockMappingStart :: (entries.flatMap spelled ++ .blockEnd :: rest) := by
    simp [ofMapping]
  rw [hlexemes]
  exact hmapping

theorem gets_root {holds : Node → Prop} {fuel : Nat}
    (h : Gets (node true false (fuel + 1)) (lexeme :: ahead) [.textEnd] holds)
    (hbegins : Begins lexeme) :
    Gets (root (fuel + 1)) (.textStart :: lexeme :: ahead) [.textEnd]
      (∃ n, holds n ∧ · = some n) := by
  refine gets_accept.bind ?_
  rintro _ rfl
  refine gets_peek.bind fun t ht ↦ ?_
  have hnotEnd : lexeme ≠ .textEnd := by
    rintro rfl
    exact hbegins
  rw [ht, if_neg hnotEnd]
  refine gets_peek.bind fun t ht ↦ ?_
  refine gets_peek.bind fun t' ht' ↦ ?_
  have hbare : endsDocument lexeme = false ∧ lexeme ≠ .documentStart := by
    cases lexeme <;> first | exact hbegins.elim | exact ⟨rfl, nofun⟩
  have hdirectives : Gets (directives false (fuel + 1)) (lexeme :: ahead) (lexeme :: ahead)
      (fun _ ↦ True) := by
    rw [directives]
    refine gets_peek.bind fun t ht ↦ ?_
    rw [ht]
    cases lexeme <;> first | exact hbegins.elim | exact fun r hr ↦ ⟨_, _, rfl, trivial, hr, rfl⟩
  refine hdirectives.bind fun _ _ ↦ ?_
  refine (gets_accept_other hbare.2).bind ?_
  rintro _ rfl
  rw [ht', hbare.1, if_neg (by simp)]
  refine gets_peek.bind fun t ht ↦ ?_
  refine h.bind fun n hn ↦ ?_
  exact gets_peek.bind fun _ _ ↦ gets_pure ⟨n, hn, rfl⟩

end Read

end ExprLang.Yaml
