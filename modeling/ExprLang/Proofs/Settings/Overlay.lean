import ExprLang.Proofs.Yaml.Reader
import ExprLang.Settings.Document
import Mathlib.Data.List.Forall2

/-!
What is set while a document is walked through. `Overlay.Comes` says what a walk comes to if nothing
in the document is wrong; a mapping comes to the effects of its entries, one after the other
(`Overlay.comes_mapping`).
-/

set_option autoImplicit false

namespace ExprLang.Settings

open Yaml (Meaning Node Read)

namespace Overlay

variable {α β : Type} {ctx : Context} {wanted : String} {fuel line : Nat}

/-- Nothing was found wrong so far, and no reference was followed. -/
structure Progress.Clear (p : Progress) : Prop where
  echoes : p.echoes = 0
  mismatches : p.mismatches = []

/-- The walk comes to `a`, and nothing is found wrong on the way. -/
def Comes (m : Overlay α) (a : α) : Prop :=
  ∀ p, Progress.Clear p → ∃ p', m p = some (a, p') ∧ Progress.Clear p'

theorem comes_pure (a : α) : Comes (pure a) a := fun p hp ↦ ⟨p, rfl, hp⟩

theorem Comes.bind {m : Overlay α} {next : α → Overlay β} {a : α} {b : β} (h : Comes m a)
    (hnext : Comes (next a) b) : Comes (m >>= next) b := by
  intro p hp
  obtain ⟨p₁, hm, hp₁⟩ := h p hp
  obtain ⟨p₂, hb, hp₂⟩ := hnext p₁ hp₁
  refine ⟨p₂, ?_, hp₂⟩
  show (m p).bind _ = _
  rw [hm]
  exact hb

/-- Outside references every visit is allowed. -/
theorem comes_count (hinside : ctx.inside = []) : Comes (count ctx) () := by
  have hnote : Comes (modify fun p ↦ { p with
      visits := p.visits + 1
      echoes := if ctx.inside.isEmpty then p.echoes else p.echoes + 1 }) () := by
    intro p hp
    refine ⟨_, rfl, ?_, hp.mismatches⟩
    rw [hinside]
    exact hp.echoes
  refine hnote.bind fun p hp ↦ ⟨p, ?_, hp⟩
  show (if _ then unusable else pure () : Overlay Unit) p = _
  rw [if_neg (by simp [hp.echoes])]
  rfl

/-- A scalar has the value that its text, or the text's look, gives it. -/
theorem comes_visitScalar {value? : String → Meaning → Option α} {text : String} {isOpen : Bool}
    {meaning : Meaning} {a : α} (hinside : ctx.inside = [])
    (hmeaning : (if isOpen then Meaning.ofScalar text else .text) = meaning)
    (hvalue : value? text meaning = some a) :
    Comes (visitScalar wanted value? (fuel + 1) ctx (.scalar text "" isOpen line)) (some a) := by
  refine (comes_count hinside).bind ?_
  have hwritten : Meaning.ofWritten text "" isOpen = some meaning := by
    rw [← hmeaning]
    rfl
  show Comes (scalar wanted value? (.scalar text "" isOpen line)) (some a)
  unfold scalar
  simp only [hwritten, hvalue]
  exact comes_pure _

theorem comes_text {text : String} {isOpen : Bool} (hinside : ctx.inside = [])
    (hmeaning : isOpen = true → Meaning.ofScalar text = .text) :
    Comes (Overlay.text (fuel + 1) ctx (.scalar text "" isOpen line)) (some text) := by
  have htext : (if isOpen then Meaning.ofScalar text else .text) = .text := by
    cases isOpen with
    | false => rfl
    | true => exact hmeaning rfl
  exact comes_visitScalar hinside htext rfl

/-! ### Mappings -/

theorem comes_foldlM {step : α → β → Overlay α} {effects : List (α → α)} {items : List β}
    (h : List.Forall₂ (fun effect item ↦ ∀ a, Comes (step a item) (effect a)) effects items)
    (a : α) : Comes (items.foldlM step a) (effects.foldl (fun a effect ↦ effect a) a) := by
  induction h generalizing a with
  | nil => exact comes_pure a
  | cons hitem _ ih =>
    rw [List.foldlM_cons]
    exact (hitem a).bind (ih _)

/-- A key that is read as it is written, and under which nothing is merged. -/
def IsOrdinary (key : String) : Prop := key ≠ "<<" ∧ Meaning.ofScalar key = .text

instance (key : String) : Decidable (IsOrdinary key) := inferInstanceAs (Decidable (_ ∧ _))

/-- The entry has this effect, whatever was set before. -/
def Sets (set : Context → α → String → Node → Overlay α) (ctx : Context) (effect : α → α)
    (pair : Node × Node) : Prop :=
  ∃ key line, pair.1 = .scalar key "" true line ∧ IsOrdinary key ∧
    ∀ a, Comes (set ctx a key pair.2) (effect a)

/-- The entries of a mapping take effect one after the other. -/
theorem comes_mapping {set : Context → α → String → Node → Overlay α} {effects : List (α → α)}
    {pairs : List (Node × Node)} (hinside : ctx.inside = []) (empty base : α)
    (h : List.Forall₂ (Sets set ctx) effects pairs) :
    Comes (mapping wanted empty set (fuel + 2) base ctx (.mapping pairs line))
      (effects.foldl (fun a effect ↦ effect a) base) := by
  rw [mapping]
  refine comes_foldlM (h.imp ?_) base
  rintro effect ⟨_, node⟩ ⟨key, line, rfl, ⟨hmerge, hkey⟩, heffect⟩ a
  have hplain : isMerge (.scalar key "" true line) = false := by
    simp [isMerge, hmerge]
  show Comes (if isMerge (.scalar key "" true line) = true then _ else _) _
  rw [hplain, if_neg Bool.false_ne_true]
  exact (comes_text hinside fun _ ↦ hkey).bind (heffect a)

theorem comes_visitMapping {set : Context → α → String → Node → Overlay α}
    {effects : List (α → α)} {pairs : List (Node × Node)} (hinside : ctx.inside = [])
    (wanted : String) (empty base : α) (h : List.Forall₂ (Sets set ctx) effects pairs)
    (fuel line : Nat) :
    Comes (visit (mapping wanted empty set (fuel + 2) base) (fuel + 2) ctx (.mapping pairs line))
      (effects.foldl (fun a effect ↦ effect a) base) :=
  (comes_count hinside).bind (comes_mapping hinside empty base h)

/-- Every entry that is read from this one has the effect. -/
def Does (set : Context → α → String → Node → Overlay α) (ctx : Context) (effect : α → α)
    (e : Read.Entry) : Prop :=
  ∀ pair, e.Matches pair → Sets set ctx effect pair

theorem sets_of_matches {set : Context → α → String → Node → Overlay α}
    {effects : List (α → α)} {entries : List Read.Entry} {pairs : List (Node × Node)}
    (h : List.Forall₂ (Does set ctx) effects entries)
    (hpairs : List.Forall₂ Read.Entry.Matches entries pairs) :
    List.Forall₂ (Sets set ctx) effects pairs := by
  induction h generalizing pairs with
  | nil =>
    cases hpairs
    exact .nil
  | cons hentry _ ih =>
    cases hpairs with
    | cons hpair hpairs => exact .cons (hentry _ hpair) (ih hpairs)

theorem comes_setting {old : α} {set : β → α} {part : Overlay (Option β)} {b : β}
    (h : Comes part (some b)) : Comes (setting old set part) (set b) :=
  h.bind (comes_pure _)

/-- An entry with a scalar sets one part to what the scalar stands for. -/
theorem does_ofScalar {set : Context → α → String → Node → Overlay α} {put : α → β → α}
    {part : Context → Node → Overlay (Option β)} {key text : String} {isPlain : Bool} {b : β}
    (hkey : IsOrdinary key)
    (hset : ∀ a node, set ctx a key node = setting a (put a) (part ctx node))
    (hpart : ∀ line, Comes (part ctx (.scalar text "" isPlain line)) (some b)) :
    Does set ctx (put · b) (.ofScalar key text isPlain) := by
  rintro pair ⟨⟨line, hfirst⟩, line', hsecond⟩
  refine ⟨key, line, hfirst, hkey, fun a ↦ ?_⟩
  rw [hset, hsecond]
  exact comes_setting (hpart line')

end Overlay

end ExprLang.Settings
