import ExprLang.Settings.Basic
import ExprLang.Text.Utf8
import ExprLang.Yaml.Reader
import ExprLang.Yaml.Scalar
import ExprLang.Yaml.Writer

/-!
Settings as documents. Reading overlays the entries of a document on settings that are already
there: a key that is missing changes nothing, a key without a value sets what is empty, of several
entries with one key the last one counts, and unknown keys are skipped. A merge key stands for the
entries of other mappings. Writing puts every setting under its key, an empty name excepted.
-/

set_option autoImplicit false

namespace ExprLang

namespace Settings

open Yaml (Document Meaning Node)

/-! ### Mismatches -/

/-- A text as messages show it: of more than ten bytes only the first seven are left. -/
def shortened (text : String) : String :=
  if text.utf8ByteSize ≤ 10 then text
  else Text.Utf8.decode ((Text.Utf8.encode text).take 7) ++ "..."

/-- A scalar as messages show it. One that is tagged like a collection has no quotes. -/
def shownScalar (text tag : String) : String :=
  if tag = "!!seq" || tag = "!!map" then tag ++ text else tag ++ " `" ++ shortened text ++ "`"

/-- The node has not the type `wanted`. -/
def Mismatch.ofNode (wanted : String) : Node → Mismatch
  | .scalar text tag isOpen line =>
    let look := ((Meaning.ofWritten text tag isOpen).getD .text).tag
    ⟨line, shownScalar text (if tag = "" then look else Meaning.shortTag tag), wanted⟩
  | .sequence _ line => ⟨line, "!!seq", wanted⟩
  | .mapping _ line => ⟨line, "!!map", wanted⟩
  | .reference .. => ⟨0, "", wanted⟩

/-! ### Visits -/

/-- What happened on the way through a document. -/
structure Progress where
  /-- The number of nodes visited, and of those visited through references. -/
  visits : Nat
  echoes : Nat
  /-- The last one first. -/
  mismatches : List Mismatch

/-- Something that visits nodes, unless the document cannot be used at all. -/
abbrev Overlay := StateT Progress Option

namespace Overlay

def unusable {α : Type} : Overlay α := fun _ ↦ none

/-- Notes that a node has not the type `wanted`. -/
def reject {α : Type} (wanted : String) (node : Node) : Overlay (Option α) := do
  modify fun p ↦ { p with mismatches := .ofNode wanted node :: p.mismatches }
  return none

/-- The document, and the references that lead to the node at hand. -/
structure Context where
  document : Document
  inside : List Nat

/-- Counts a visit. A document that consists of almost nothing but references is refused. -/
def count (ctx : Context) : Overlay Unit := do
  modify fun p ↦ { p with
    visits := p.visits + 1
    echoes := if ctx.inside.isEmpty then p.echoes else p.echoes + 1 }
  let p ← get
  if 100 < p.echoes && 1000 < p.visits && 99 * p.visits < 100 * p.echoes then unusable

/-- Visits the node that a node stands for. Nothing may stand for a part of itself. -/
def visit {α : Type} (use : Context → Node → Overlay α) : (fuel : Nat) → Context → Node → Overlay α
  | 0, _, _ => unusable
  | fuel + 1, ctx, node => do
    count ctx
    match node with
    | .reference _ anchor place =>
      match ctx.document.anchors[anchor]? with
      | none => unusable
      | some (_, target) =>
        if ctx.inside.contains place then unusable
        else visit use fuel { ctx with inside := place :: ctx.inside } target
    | _ => use ctx node

/-- The value of a scalar, if it has the type `wanted`. -/
def scalar {α : Type} (wanted : String) (value? : String → Meaning → Option α) (node : Node) :
    Overlay (Option α) := do
  match node with
  | .scalar text tag isOpen _ =>
    match Meaning.ofWritten text tag isOpen with
    | none => unusable
    | some meaning =>
      match value? text meaning with
      | some value => return some value
      | none => reject wanted node
  | _ => reject wanted node

/-- Visits a scalar. -/
def visitScalar {α : Type} (wanted : String) (value? : String → Meaning → Option α) (fuel : Nat)
    (ctx : Context) (node : Node) : Overlay (Option α) :=
  visit (fun _ ↦ scalar wanted value?) fuel ctx node

/-- Any scalar is text. -/
def text : (fuel : Nat) → Context → Node → Overlay (Option String) :=
  visitScalar "string" fun written meaning ↦ some (meaning.toText written)

def int : (fuel : Nat) → Context → Node → Overlay (Option Int64) :=
  visitScalar "int" fun _ meaning ↦ meaning.toInt64?

def bool : (fuel : Nat) → Context → Node → Overlay (Option Bool) :=
  visitScalar "bool" fun _ meaning ↦ meaning.toBool?

/-! ### Mappings -/

/-- A key that stands for the entries of other mappings. -/
def isMerge : Node → Bool
  | .scalar text tag isOpen _ =>
    text = "<<" && (isOpen || tag = Meaning.tagStart ++ "merge")
  | _ => false

/-- A mapping, or a reference whose name was last given to one. -/
def isSource (document : Document) : Node → Bool
  | .reference name _ _ => (document.named? name).any Node.isMapping
  | node => node.isMapping

/-- The mappings behind a merge key. The first one wins, so it comes last. -/
def sources? (document : Document) : Node → Option (List Node)
  | .sequence items _ => if items.all (isSource document) then some items.reverse else none
  | node => if isSource document node then some [node] else none

/-- Overlays a mapping on `base`, entry by entry with `set`. Nothing at all gives `empty`. -/
def mapping {α : Type} (wanted : String) (empty : α)
    (set : Context → α → String → Node → Overlay α) :
    (fuel : Nat) → (base : α) → Context → Node → Overlay α
  | 0, _, _, _ => unusable
  | fuel + 1, base, ctx, node => do
    match node with
    | .mapping entries _ =>
      entries.foldlM (fun value (key, node) ↦ do
        if isMerge key then
          match sources? ctx.document node with
          | none => unusable
          | some sources =>
            sources.foldlM
              (fun value source ↦ visit (mapping wanted empty set fuel value) fuel ctx source) value
        else
          match ← text fuel ctx key with
          | none => return value
          | some key => set ctx value key node) base
    | .scalar .. =>
      let isNothing ←
        scalar wanted (fun _ meaning ↦ if meaning = .nothing then some () else none) node
      return if isNothing.isSome then empty else base
    | _ =>
      let _ : Option α ← reject wanted node
      return base

end Overlay

/-! ### Settings -/

/-- The value with a part set, if there is something to set it to. -/
def setting {α β : Type} (old : α) (set : β → α) (part : Overlay (Option β)) : Overlay α := do
  return (← part).elim old set

def Dialogue.setEntry (fuel : Nat) (ctx : Overlay.Context) (d : Dialogue) (key : String)
    (node : Node) : Overlay Dialogue :=
  match key with
  | "prompt" => setting d (fun t ↦ { d with prompt := t }) (.text fuel ctx node)
  | "continuation" => setting d (fun t ↦ { d with continuation := t }) (.text fuel ctx node)
  | "history_file" => setting d (fun t ↦ { d with historyFile := t }) (.text fuel ctx node)
  | _ => return d

def setEntry (fuel : Nat) (ctx : Overlay.Context) (s : Settings) (key : String) (node : Node) :
    Overlay Settings :=
  match key with
  | "name" => setting s (fun t ↦ { s with name := t }) (.text fuel ctx node)
  | "iteration_limit" => setting s (fun n ↦ { s with iterationLimit := n }) (.int fuel ctx node)
  | "call_depth_limit" => setting s (fun n ↦ { s with callDepthLimit := n }) (.int fuel ctx node)
  | "log_level" => setting s (fun t ↦ { s with logLevel := t }) (.text fuel ctx node)
  | "banner" => setting s (fun b ↦ { s with banner := b }) (.bool fuel ctx node)
  | "repl" => do
    let dialogue ← Overlay.visit
      (Overlay.mapping "config.REPL" Dialogue.empty (Dialogue.setEntry fuel) fuel s.dialogue)
      fuel ctx node
    return { s with dialogue := dialogue }
  | _ => return s

/-- The settings with the entries of a document laid over them. A walk through the document cannot
take more than `fuel` steps. -/
def overlayDocument (fuel : Nat) (s : Settings) (document : Document) : Except Problem Settings :=
  let walk := Overlay.visit
    (Overlay.mapping "config.Config" Settings.empty (setEntry fuel) fuel s) fuel ⟨document, []⟩
    document.root
  match walk ⟨0, 0, []⟩ with
  | none => .error .malformed
  | some (s, progress) =>
    match progress.mismatches.reverse with
    | [] => .ok s
    | first :: others => .error (.mismatches first others)

/-- Valid settings from the bytes of a document, laid over the standard ones. -/
def ofBytes (bytes : List UInt8) : Except Problem Settings := do
  match Yaml.read bytes with
  | none => .error .malformed
  | some document =>
    let fuel := (bytes.length + 2) * (bytes.length + 2)
    let s ← match document with
      | none => pure standard
      | some document => standard.overlayDocument fuel document
    s.validate
    return s

/-- Valid settings from the text of a document. -/
def ofText (text : String) : Except Problem Settings := ofBytes (Text.Utf8.encode text)

open Yaml.Writer in
/-- The document that holds the settings. -/
def toText (s : Settings) : String :=
  String.ofList (
    (if s.name = "" then [] else textEntry 0 "name" s.name) ++
    intEntry 0 "iteration_limit" s.iterationLimit.toInt ++
    intEntry 0 "call_depth_limit" s.callDepthLimit.toInt ++
    textEntry 0 "log_level" s.logLevel ++
    boolEntry 0 "banner" s.banner ++
    "repl:\n".toList ++
    textEntry 2 "prompt" s.dialogue.prompt ++
    textEntry 2 "continuation" s.dialogue.continuation ++
    textEntry 2 "history_file" s.dialogue.historyFile)

end Settings

end ExprLang
