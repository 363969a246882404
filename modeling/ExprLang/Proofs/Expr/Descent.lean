import ExprLang.Expr.Parser
import ExprLang.Proofs.Token.Tape

/-!
Reading by recursive descent. For each construct of the language there is a reader that calls those
of its parts, and the binary operators are a ladder of readers from the loosest to the tightest. A
reader says what it does up to a call of another one (`Reader.body`), and what it comes to is a
relation that goes through all the calls (`Reading.Gives`). Nothing in that says that calls have an
end; if they have none, there is no result. They have one, from every cursor: whatever is read first
takes a token, so a reader that is called again has fewer tokens before it (`expression_ends`,
`statements_ends`). Where the tokens run out of things to read is part of the same statement: a
finished expression is not followed by a token that would extend it (`Whole`).
-/

set_option autoImplicit false

namespace ExprLang.Token.Cursor

/-! ### Going on along the tokens -/

/-- The cursor `d` is at least `n` tokens further than `c` along the same tokens. -/
def Onward (n : Nat) (c d : Cursor) : Prop := d.tokens = c.tokens ∧ c.index + n ≤ d.index

variable {m n : Nat} {c d e : Cursor}

theorem Onward.refl (c : Cursor) : Onward 0 c c := ⟨rfl, Nat.le_refl _⟩

theorem Onward.trans (h : Onward m c d) (hd : Onward n d e) : Onward (m + n) c e := by
  refine ⟨hd.1.trans h.1, ?_⟩
  have hm := h.2
  have hn := hd.2
  omega

theorem Onward.mono (h : Onward n c d) (hmn : m ≤ n) : Onward m c d :=
  ⟨h.1, Nat.le_trans (Nat.add_le_add_left hmn _) h.2⟩

theorem Onward.zero (h : Onward n c d) : Onward 0 c d := h.mono (Nat.zero_le n)

theorem Onward.length_ahead (h : Onward n c d) : d.ahead.length + n ≤ c.ahead.length := by
  have hc := c.length_tokens
  have hd := d.length_tokens
  rw [h.1] at hd
  have hn := h.2
  omega

theorem onward_advance (h : c.index + 1 < c.tokens.length) : Onward 1 c c.advance :=
  ⟨c.tokens_advance, Nat.le_of_eq (index_advance h).symm⟩

/-- What holds of a cursor if it holds of all that are further holds of every cursor. -/
theorem induction_onward {P : Cursor → Prop} (step : ∀ c, (∀ d, Onward 1 c d → P d) → P c)
    (c : Cursor) : P c := by
  induction hlength : c.ahead.length using Nat.strongRecOn generalizing c with
  | _ length ih =>
    refine step c fun d hd ↦ ih d.ahead.length ?_ d rfl
    have := hd.length_ahead
    omega

end ExprLang.Token.Cursor

namespace ExprLang.Parser

open Token (Cursor Kind)

/-! ### The readers -/

/-- The readers, by what they read. -/
inductive Reader : Type → Type
  | expression : Reader Tree
  | assignment : Reader Tree
  /-- Operations of the first of some levels, or of a tighter one. -/
  | level (levels : List (List Kind)) : Reader Tree
  /-- Goes on behind the operations of one level that were read. -/
  | operations (kinds : List Kind) (tighter : List (List Kind)) (left : Tree) : Reader Tree
  /-- An operand with its index signs, or a call. -/
  | access : Reader Tree
  | indices (base : Tree) : Reader Tree
  | primary : Reader Tree
  | array : Reader Tree
  /-- The elements of an array, the last one first, behind those that were read. -/
  | elements (done : List Tree) : Reader (List Tree)
  | function : Reader Tree
  | loop : Reader Tree
  | branch : Reader Tree
  | block : Reader Tree
  /-- The expressions of a block, the last one first, behind those that were read. -/
  | items (done : List Tree) : Reader (List Tree)
  /-- The expressions of a program, the last one first, behind those that were read. -/
  | statements (done : List Tree) : Reader (List Tree)

/-- What a reader does next. -/
inductive Reading (α : Type) : Type 1
  | ends (r : Except Fault (α × Cursor))
  /-- A reader is called at `c`, and what it reads is used if nothing is wrong with it. -/
  | calls {β : Type} (reader : Reader β) (c : Cursor) (next : β → Cursor → Reading α)

def Reading.bind {α β : Type} : Reading α → (α → Cursor → Reading β) → Reading β
  | ends (.error fault), _ => ends (.error fault)
  | ends (.ok read), q => q read.1 read.2
  | calls reader c next, q => calls reader c fun a d ↦ (next a d).bind q

/-- Reads on from a cursor, with calls of the readers. -/
def Descent (α : Type) := Cursor → Reading α

instance : Monad Descent where
  pure a c := .ends (.ok (a, c))
  bind p q c := (p c).bind q

namespace Descent

variable {α β : Type}

def fail (fault : Fault) : Descent α := fun _ ↦ .ends (.error fault)

def here : Descent Cursor := fun c ↦ .ends (.ok (c, c))

def read (reader : Reader α) : Descent α := fun c ↦
  .calls reader c fun a d ↦ .ends (.ok (a, d))

def atEnd : Descent Bool := fun c ↦ .ends (.ok (c.atEnd, c))

def check (kind : Kind) : Descent Bool := fun c ↦ .ends (.ok (c.check kind, c))

def accept (kind : Kind) : Descent Bool := fun c ↦ .ends (.ok (c.accept kind))

def acceptAny (kinds : List Kind) : Descent (Option Token) := fun c ↦
  .ends (.ok (c.acceptAny kinds))

def require (wanted : Kind × String) : Descent Token := fun c ↦
  match c.expect wanted.1 wanted.2 with
  | (.ok t, d) => .ends (.ok (t, d))
  | (.error fault, _) => .ends (.error fault)

def number (t : Token) : Descent Int64 :=
  match t.int? with
  | some n => pure n
  | none => fail (.payload .int t)

def name (t : Token) : Descent String :=
  match t.ident? with
  | some name => pure name
  | none => fail (.payload .ident t)

/-- The kinds that an operand can start with. -/
def operandKinds : List Kind := [.lbracket, .func, .while, .if, .lbrace, .int, .ident, .lparen]

/-- The kinds of the binary operators, level by level from the loosest to the tightest. -/
def ladder : List (List Kind) :=
  [[.or], [.and], [.equal, .notEqual], [.less, .lessEqual, .greater, .greaterEqual],
    [.plus, .minus], [.multiply, .divide]]

end Descent

open Descent in
/-- What a reader does. -/
def Reader.body : {α : Type} → Reader α → Descent α
  | _, expression => read assignment
  | _, assignment => do
    let e ← read (level ladder)
    if !(← accept .assign) then return e
    let sign := (← here).previous
    match e with
    | .var name => return .assign name (← read assignment)
    | .access base index => return .assignCell base index (← read assignment)
    | _ => fail (.assignmentTarget sign.span)
  | _, level [] => read access
  | _, level (kinds :: tighter) => do
    let left ← read (level tighter)
    read (operations kinds tighter left)
  | _, operations kinds tighter left => do
    match ← acceptAny kinds with
    | none => return left
    | some t =>
      let right ← read (level tighter)
      read (operations kinds tighter (.binary ((Operator.ofKind? t.kind).getD .add) left right))
  | _, access => do
    let base ← read primary
    let e ← read (indices base)
    match e with
    | .var name =>
      if !(← accept .lparen) then return e
      let argument ← read expression
      let _ ← require (Context.argument name).closer
      return .call name argument
    | _ => return e
  | _, indices base => do
    if !(← accept .lbracket) then return base
    let index ← read expression
    let _ ← require (Context.subscript base).closer
    read (indices (.access base index))
  | _, primary => do
    match ← acceptAny operandKinds with
    | none =>
      let t := (← here).peek
      fail (.expectedOneOf operandForms t.kind t.span)
    | some t =>
      match t.kind with
      | .lbracket => read array
      | .func => read function
      | .while => read loop
      | .if => read branch
      | .lbrace => read block
      | .int => return .int (← number t)
      | .ident => return .var (← name t)
      | _ =>
        let e ← read expression
        let _ ← require Context.group.closer
        return e
  | _, array => do
    let empty ← check .rbracket
    let done ← (if empty then pure [] else read (elements []))
    let _ ← require (Context.elements done).closer
    return .array done.reverse
  | _, elements done => do
    let e ← read expression
    if ← accept .comma then read (elements (e :: done)) else return e :: done
  | _, function => do
    let t ← require Header.functionName.wanted
    let _ ← require (Header.functionOpen none).wanted
    let u ← require (Header.functionParameter none).wanted
    let _ ← require (Header.functionClose none none).wanted
    return .define () (← name t) (← name u) (← read expression)
  | _, loop => do
    let _ ← require Header.whileOpen.wanted
    let condition ← read expression
    let _ ← require Context.whileCondition.closer
    return .loop condition (← read expression)
  | _, branch => do
    let _ ← require Header.ifOpen.wanted
    let condition ← read expression
    let _ ← require Context.ifCondition.closer
    let onTrue ← read expression
    if !(← accept .else) then return .branch condition onTrue none
    return .branch condition onTrue (some (← read expression))
  | _, block => do
    let done ← read (items [])
    let _ ← require (Context.block done).closer
    return .block done.reverse
  | _, items done => do
    if (← check .rbrace) || (← atEnd) then return done
    let e ← read expression
    let _ ← accept .semicolon
    read (items (e :: done))
  | _, statements done => do
    if ← atEnd then return done
    let e ← read expression
    let _ ← accept .semicolon
    read (statements (e :: done))

/-- What reading comes to, through all the calls on the way. Where the calls have no end, it comes
to nothing. -/
inductive Reading.Gives : {α : Type} → Reading α → Except Fault (α × Cursor) → Prop
  | ends {α : Type} (r : Except Fault (α × Cursor)) : Gives (.ends r) r
  | calls {α β : Type} {reader : Reader β} {c d : Cursor} {next : β → Cursor → Reading α} {b : β}
      {r : Except Fault (α × Cursor)} (hcall : Gives (reader.body c) (.ok (b, d)))
      (hnext : Gives (next b d) r) : Gives (.calls reader c next) r
  | fails {α β : Type} {reader : Reader β} {c : Cursor} {next : β → Cursor → Reading α}
      {fault : Fault} (hcall : Gives (reader.body c) (.error fault)) :
      Gives (.calls reader c next) (.error fault)

namespace Reading.Gives

variable {α β : Type} {x : Reading α} {q : α → Cursor → Reading β}

/-- Reading comes to one result at most. -/
theorem unique {r s : Except Fault (α × Cursor)} (h : x.Gives r) (hs : x.Gives s) : r = s := by
  induction h with
  | ends r =>
    cases hs
    rfl
  | calls _ _ ihcall ihnext =>
    cases hs with
    | calls hcall hnext =>
      cases ihcall hcall
      exact ihnext hnext
    | fails hcall => cases ihcall hcall
  | fails _ ihcall =>
    cases hs with
    | calls hcall hnext => cases ihcall hcall
    | fails hcall =>
      cases ihcall hcall
      rfl

theorem bind {a : α} {d : Cursor} {s : Except Fault (β × Cursor)} (h : x.Gives (.ok (a, d)))
    (hq : (q a d).Gives s) : (x.bind q).Gives s := by
  induction x with
  | ends r =>
    cases h
    exact hq
  | calls reader c next ih =>
    cases h with
    | calls hcall hnext => exact .calls hcall (ih _ _ hnext)

theorem bind_error {fault : Fault} (h : x.Gives (.error fault)) :
    (x.bind q).Gives (.error fault) := by
  induction x with
  | ends r =>
    cases h
    exact .ends _
  | calls reader c next ih =>
    cases h with
    | calls hcall hnext => exact .calls hcall (ih _ _ hnext)
    | fails hcall => exact .fails hcall

/-- What comes of going on is an error of the reading before, or comes of what that has read. -/
theorem cases_of_bind {s : Except Fault (β × Cursor)} (h : (x.bind q).Gives s) :
    (∃ fault, x.Gives (.error fault) ∧ s = .error fault) ∨
      ∃ a d, x.Gives (.ok (a, d)) ∧ (q a d).Gives s := by
  induction x with
  | ends r =>
    cases r with
    | error fault =>
      cases h
      exact .inl ⟨fault, .ends _, rfl⟩
    | ok read => exact .inr ⟨read.1, read.2, .ends _, h⟩
  | calls reader c next ih =>
    cases h with
    | calls hcall hnext =>
      obtain ⟨fault, hfails, hs⟩ | ⟨a, d, hread, hq⟩ := ih _ _ hnext
      · exact .inl ⟨fault, .calls hcall hfails, hs⟩
      · exact .inr ⟨a, d, .calls hcall hread, hq⟩
    | fails hcall => exact .inl ⟨_, .fails hcall, rfl⟩

end Reading.Gives

namespace Descent

variable {α β : Type} {c d e : Cursor} {m n : Nat}

/-- The expressions of a program, all of them. -/
def program : Descent (List Tree) := do
  return (← read (.statements [])).reverse

theorem require_of_check {wanted : Kind × String} (h : c.check wanted.1 = true)
    (q : Token → Descent β) : (require wanted >>= q) c = q c.peek c.advance := by
  have hexpect : c.expect wanted.1 wanted.2 = (.ok c.peek, c.advance) := if_pos h
  change (require wanted c).bind q = _
  rw [require, hexpect]
  rfl

theorem require_of_check_eq_false {wanted : Kind × String} (h : c.check wanted.1 = false)
    (q : Token → Descent β) :
    (require wanted >>= q) c = .ends (.error (wanting wanted.1 wanted.2 c.peek)) := by
  have hexpect : c.expect wanted.1 wanted.2 = (.error (wanting wanted.1 wanted.2 c.peek), c) :=
    if_neg (by simp [h])
  change (require wanted c).bind q = _
  rw [require, hexpect]
  rfl

theorem gives_read_iff {reader : Reader α} {r : Except Fault (α × Cursor)} :
    (read reader c).Gives r ↔ (reader.body c).Gives r := by
  constructor
  · rintro (_ | ⟨hcall, hnext⟩ | hcall)
    · cases hnext
      exact hcall
    · exact hcall
  · intro h
    cases r with
    | error fault => exact .fails h
    | ok x => exact .calls h (.ends _)

/-! ### Readers that end -/

/-- Reading from `c` ends, and what is read, if nothing is wrong with it, is as `Q` says. -/
def Ends (p : Descent α) (c : Cursor) (Q : α → Cursor → Prop) : Prop :=
  ∃ r, (p c).Gives r ∧ ∀ a d, r = .ok (a, d) → Q a d

namespace Ends

variable {Q : α → Cursor → Prop} {R : β → Cursor → Prop}

theorem exists_gives {p : Descent α} (h : Ends p c Q) : ∃ r, (p c).Gives r := by
  obtain ⟨r, hr, -⟩ := h
  exact ⟨r, hr⟩

theorem of_gives {p : Descent α} {a : α} (h : Ends p c Q) (hp : (p c).Gives (.ok (a, d))) :
    Q a d := by
  obtain ⟨r, hr, hQ⟩ := h
  exact hQ a d (hr.unique hp)

theorem pure {a : α} (h : Q a c) : Ends (Pure.pure a) c Q := by
  refine ⟨.ok (a, c), .ends _, fun b d heq ↦ ?_⟩
  cases heq
  exact h

theorem fail (fault : Fault) (Q : α → Cursor → Prop) : Ends (Descent.fail fault) c Q :=
  ⟨.error fault, .ends _, fun _ _ h ↦ by cases h⟩

theorem mono {p : Descent α} {S : α → Cursor → Prop} (h : Ends p c Q)
    (hQS : ∀ a d, Q a d → S a d) : Ends p c S := by
  obtain ⟨r, hr, hQ⟩ := h
  exact ⟨r, hr, fun a d heq ↦ hQS a d (hQ a d heq)⟩

theorem bind {p : Descent α} {q : α → Descent β} (hp : Ends p c Q)
    (hq : ∀ a d, Q a d → Ends (q a) d R) : Ends (p >>= q) c R := by
  obtain ⟨r, hr, hQ⟩ := hp
  cases r with
  | error fault => exact ⟨.error fault, hr.bind_error, fun _ _ h ↦ by cases h⟩
  | ok x =>
    obtain ⟨s, hs, hR⟩ := hq x.1 x.2 (hQ _ _ rfl)
    exact ⟨s, hr.bind hs, hR⟩

/-- A call ends as the reader does. -/
theorem read_iff {reader : Reader α} : Ends (Descent.read reader) c Q ↔ Ends reader.body c Q := by
  simp only [Ends, gives_read_iff]

theorem read {reader : Reader α} (h : Ends reader.body c Q) : Ends (Descent.read reader) c Q :=
  read_iff.mpr h

variable {kind : Kind} {kinds : List Kind}

theorem accept {q : Bool → Descent β} (hd : c.Onward n d)
    (hyes : c.Onward (n + 1) d.advance → Ends (q true) d.advance R)
    (hno : d.check kind = false → Ends (q false) d R) : Ends (Descent.accept kind >>= q) d R := by
  change Ends (q (d.accept kind).1) (d.accept kind).2 R
  rw [Cursor.accept]
  cases hcheck : d.check kind with
  | false => exact hno hcheck
  | true => exact hyes (hd.trans (Cursor.onward_advance (Cursor.lt_of_check hcheck)))

theorem acceptAny {q : Option Token → Descent β} (hd : c.Onward n d)
    (hyes : c.Onward (n + 1) d.advance → Ends (q (some d.peek)) d.advance R)
    (hno : d.checkAny kinds = false → Ends (q none) d R) :
    Ends (Descent.acceptAny kinds >>= q) d R := by
  change Ends (q (d.acceptAny kinds).1) (d.acceptAny kinds).2 R
  rw [Cursor.acceptAny]
  cases hcheck : d.checkAny kinds with
  | false => exact hno hcheck
  | true => exact hyes (hd.trans (Cursor.onward_advance (Cursor.lt_of_checkAny hcheck)))

theorem require {wanted : Kind × String} {q : Token → Descent β} (hd : c.Onward n d)
    (h : c.Onward (n + 1) d.advance → Ends (q d.peek) d.advance R) :
    Ends (Descent.require wanted >>= q) d R := by
  unfold Ends
  cases hcheck : d.check wanted.1 with
  | false =>
    rw [require_of_check_eq_false hcheck]
    exact ⟨_, .ends _, fun _ _ h ↦ by cases h⟩
  | true =>
    rw [require_of_check hcheck]
    exact h (hd.trans (Cursor.onward_advance (Cursor.lt_of_check hcheck)))

theorem check {q : Bool → Descent β} (h : Ends (q (c.check kind)) c R) :
    Ends (Descent.check kind >>= q) c R := h

theorem atEnd {q : Bool → Descent β} (h : Ends (q c.atEnd) c R) :
    Ends (Descent.atEnd >>= q) c R := h

theorem here {q : Cursor → Descent β} (h : Ends (q c) c R) :
    Ends (Descent.here >>= q) c R := h

theorem name (t : Token) {q : String → Descent β} (h : ∀ name, Ends (q name) c R) :
    Ends (Descent.name t >>= q) c R := by
  unfold Descent.name
  cases t.ident? with
  | none => exact bind (fail _ fun _ _ ↦ False) fun _ _ h ↦ h.elim
  | some name => exact h name

theorem number (t : Token) {q : Int64 → Descent β} (h : ∀ n, Ends (q n) c R) :
    Ends (Descent.number t >>= q) c R := by
  unfold Descent.number
  cases t.int? with
  | none => exact bind (fail _ fun _ _ ↦ False) fun _ _ h ↦ h.elim
  | some n => exact h n

end Ends

/-! ### Expressions -/

/-- The next token does not extend `e`: it is neither the opening sign of a call nor an operator of
one of the levels. -/
def Rests (levels : List (List Kind)) (e : Tree) (c : Cursor) : Prop :=
  (∀ name, e = .var name → c.check .lparen = false) ∧ ∀ kinds ∈ levels, c.checkAny kinds = false

/-- The next token extends `e` in no way. -/
def Whole (e : Tree) (c : Cursor) : Prop := Rests ladder e c ∧ c.check .assign = false

theorem Rests.of_ne_var {levels : List (List Kind)} {part whole : Tree} (h : Rests levels part c)
    (hvar : ∀ name, whole ≠ .var name) : Rests levels whole c :=
  ⟨fun name heq ↦ absurd heq (hvar name), h.2⟩

theorem Whole.of_ne_var {part whole : Tree} (h : Whole part c) (hvar : ∀ name, whole ≠ .var name) :
    Whole whole c :=
  ⟨h.1.of_ne_var hvar, h.2⟩

/-- An expression is read to its end from each cursor at least `n` tokens further than `c`. -/
def EndsBeyond (n : Nat) (c : Cursor) : Prop :=
  ∀ d, c.Onward n d → Ends (read .expression) d fun e f ↦ d.Onward 1 f ∧ Whole e f

theorem EndsBeyond.onward (h : EndsBeyond m c) (hd : c.Onward n d) {k : Nat} (hm : m ≤ n + k) :
    EndsBeyond k d :=
  fun e he ↦ h e ((hd.trans he).mono hm)

theorem EndsBeyond.read {q : Tree → Descent α} {Q : α → Cursor → Prop}
    (h : EndsBeyond m c) (hd : c.Onward n d) (hm : m ≤ n)
    (hq : ∀ e f, c.Onward (n + 1) f → Whole e f → Ends (q e) f Q) :
    Ends (read .expression >>= q) d Q :=
  (h d (hd.mono hm)).bind fun e f ⟨hf, hwhole⟩ ↦ hq e f (hd.trans hf) hwhole

theorem indices_ends (h : EndsBeyond 1 c) (base : Tree) :
    Ends (read (.indices base)) c fun _ d ↦ c.Onward 0 d ∧ d.check .lbracket = false := by
  induction c using Cursor.induction_onward generalizing base with
  | step c ih =>
    refine .read ?_
    rw [Reader.body]
    refine .accept (.refl c) (fun hopen ↦ ?_) fun hcheck ↦ .pure ⟨.refl c, hcheck⟩
    refine h.read hopen (by omega) fun index d hd _ ↦ ?_
    refine .require hd fun hclose ↦ ?_
    have hrest := ih _ (hclose.mono (by omega)) (h.onward hclose (by omega)) (.access base index)
    refine hrest.mono fun _ e he ↦ ?_
    exact ⟨(hclose.trans he.1).zero, he.2⟩

theorem elements_ends (h : EndsBeyond 0 c) (done : List Tree) :
    Ends (read (.elements done)) c fun _ d ↦ c.Onward 0 d := by
  induction c using Cursor.induction_onward generalizing done with
  | step c ih =>
    refine .read ?_
    rw [Reader.body]
    refine h.read (.refl c) (by omega) fun e d hd _ ↦ ?_
    refine .accept hd (fun hcomma ↦ ?_) fun _ ↦ .pure hd.zero
    have hrest := ih _ (hcomma.mono (by omega)) (h.onward hcomma (by omega)) (e :: done)
    exact hrest.mono fun _ f hf ↦ (hcomma.trans hf).zero

theorem items_ends (h : EndsBeyond 0 c) (done : List Tree) :
    Ends (read (.items done)) c fun _ d ↦ c.Onward 0 d ∧ (d.check .rbrace || d.atEnd) = true := by
  induction c using Cursor.induction_onward generalizing done with
  | step c ih =>
    refine .read ?_
    rw [Reader.body]
    refine .check (.atEnd ?_)
    by_cases hstop : (c.check .rbrace || c.atEnd) = true
    · rw [if_pos hstop]
      exact .pure ⟨.refl c, hstop⟩
    rw [if_neg hstop]
    refine h.read (.refl c) (by omega) fun e d hd _ ↦ ?_
    have hrest : ∀ f, c.Onward 1 f → Ends (read (.items (e :: done))) f fun _ g ↦
        c.Onward 0 g ∧ (g.check .rbrace || g.atEnd) = true := by
      intro f hf
      refine (ih f hf (h.onward hf (by omega)) (e :: done)).mono fun _ g hg ↦ ?_
      exact ⟨(hf.trans hg.1).zero, hg.2⟩
    refine .accept hd (fun hsemicolon ↦ ?_) fun _ ↦ hrest d hd
    exact hrest _ (hsemicolon.mono (by omega))

theorem array_ends (h : EndsBeyond 0 c) : Ends (read .array) c fun _ d ↦ c.Onward 0 d := by
  refine .read ?_
  rw [Reader.body]
  have helements : Ends (if c.check .rbracket then Pure.pure [] else read (.elements [])) c
      fun _ d ↦ c.Onward 0 d := by
    split_ifs
    · exact .pure (.refl c)
    · exact elements_ends h []
  refine .check (helements.bind fun done d hd ↦ ?_)
  refine .require hd fun hclose ↦ ?_
  exact .pure hclose.zero

theorem function_ends (h : EndsBeyond 0 c) : Ends (read .function) c fun _ d ↦ c.Onward 0 d := by
  refine .read ?_
  rw [Reader.body]
  refine .require (.refl c) fun hname ↦ ?_
  refine .require hname fun hopen ↦ ?_
  refine .require hopen fun hparameter ↦ ?_
  refine .require hparameter fun hclose ↦ ?_
  refine .name _ fun name ↦ ?_
  refine .name _ fun parameter ↦ ?_
  refine h.read hclose (by omega) fun body d hd _ ↦ ?_
  exact .pure hd.zero

theorem loop_ends (h : EndsBeyond 0 c) : Ends (read .loop) c fun _ d ↦ c.Onward 0 d := by
  refine .read ?_
  rw [Reader.body]
  refine .require (.refl c) fun hopen ↦ ?_
  refine h.read hopen (by omega) fun condition d hd _ ↦ ?_
  refine .require hd fun hclose ↦ ?_
  refine h.read hclose (by omega) fun body e he _ ↦ ?_
  exact .pure he.zero

theorem branch_ends (h : EndsBeyond 0 c) : Ends (read .branch) c fun _ d ↦ c.Onward 0 d := by
  refine .read ?_
  rw [Reader.body]
  refine .require (.refl c) fun hopen ↦ ?_
  refine h.read hopen (by omega) fun condition d hd _ ↦ ?_
  refine .require hd fun hclose ↦ ?_
  refine h.read hclose (by omega) fun onTrue e he _ ↦ ?_
  refine .accept he (fun helse ↦ ?_) fun _ ↦ .pure he.zero
  refine h.read helse (by omega) fun onFalse f hf _ ↦ ?_
  exact .pure hf.zero

theorem block_ends (h : EndsBeyond 0 c) : Ends (read .block) c fun _ d ↦ c.Onward 0 d := by
  refine .read ?_
  rw [Reader.body]
  refine (items_ends h []).bind fun done d hd ↦ ?_
  refine .require hd.1 fun hclose ↦ ?_
  exact .pure hclose.zero

theorem primary_ends (h : EndsBeyond 1 c) : Ends (read .primary) c fun _ d ↦ c.Onward 1 d := by
  refine .read ?_
  rw [Reader.body]
  refine .acceptAny (.refl c) (fun hnext ↦ ?_) fun _ ↦ .here (.fail _ _)
  -- The token that is taken stands behind `c`, whatever follows it.
  have hlater {p : Descent Tree} (hp : Ends p c.advance fun _ d ↦ c.advance.Onward 0 d) :
      Ends p c.advance fun _ d ↦ c.Onward 1 d :=
    hp.mono fun _ d hd ↦ (hnext.trans hd).mono (by omega)
  have hrest : EndsBeyond 0 c.advance := h.onward hnext (by omega)
  dsimp only
  split
  · exact hlater (array_ends hrest)
  · exact hlater (function_ends hrest)
  · exact hlater (loop_ends hrest)
  · exact hlater (branch_ends hrest)
  · exact hlater (block_ends hrest)
  · exact .number _ fun _ ↦ .pure hnext
  · exact .name _ fun _ ↦ .pure hnext
  · refine h.read hnext (by omega) fun e d hd _ ↦ ?_
    refine .require hd fun hclose ↦ ?_
    exact .pure (hclose.mono (by omega))

theorem access_ends (h : EndsBeyond 1 c) :
    Ends (read .access) c fun e d ↦ c.Onward 1 d ∧ Rests [] e d := by
  refine .read ?_
  rw [Reader.body]
  refine (primary_ends h).bind fun base d hd ↦ ?_
  refine (indices_ends (h.onward hd (by omega)) base).bind fun e f hf ↦ ?_
  have hnext : c.Onward 1 f := hd.trans hf.1
  have hlevels (g : Cursor) : ∀ kinds ∈ [], g.checkAny kinds = false := List.forall_mem_nil _
  split
  · refine .accept hnext (fun hopen ↦ ?_) fun hcheck ↦ .pure ⟨hnext, fun _ _ ↦ hcheck, hlevels f⟩
    refine h.read hopen (by omega) fun argument g hg _ ↦ ?_
    refine .require hg fun hclose ↦ ?_
    exact .pure ⟨hclose.mono (by omega), by simp, hlevels _⟩
  · rename_i hvar
    exact .pure ⟨hnext, fun name heq ↦ absurd heq (hvar name), hlevels f⟩

theorem operations_ends {tighter : List (List Kind)}
    (h : ∀ d, c.Onward 1 d →
      Ends (read (.level tighter)) d fun e f ↦ d.Onward 1 f ∧ Rests tighter e f)
    (kinds : List Kind) (left : Tree) : Ends (read (.operations kinds tighter left)) c fun e d ↦
      c.Onward 0 d ∧ (Rests tighter left c → Rests (kinds :: tighter) e d) := by
  induction c using Cursor.induction_onward generalizing left with
  | step c ih =>
    refine .read ?_
    rw [Reader.body]
    refine .acceptAny (.refl c) (fun hsign ↦ ?_) fun hcheck ↦ ?_
    · refine (h _ hsign).bind fun right d hright ↦ ?_
      obtain ⟨hd, hrests⟩ := hright
      have hnext : c.Onward 1 d := (hsign.trans hd).mono (by omega)
      refine (ih d hnext (fun e he ↦ h e ((hnext.trans he).mono (by omega))) _).mono ?_
      rintro e f ⟨hf, hrest⟩
      exact ⟨(hnext.trans hf).zero, fun _ ↦ hrest (hrests.of_ne_var (by simp))⟩
    · refine .pure ⟨.refl c, fun hrests ↦ ⟨hrests.1, ?_⟩⟩
      exact List.forall_mem_cons.mpr ⟨hcheck, hrests.2⟩

theorem level_ends (h : EndsBeyond 1 c) (levels : List (List Kind)) :
    Ends (read (.level levels)) c fun e d ↦ c.Onward 1 d ∧ Rests levels e d := by
  induction levels generalizing c with
  | nil =>
    refine .read ?_
    rw [Reader.body]
    exact access_ends h
  | cons kinds tighter ih =>
    refine .read ?_
    rw [Reader.body]
    refine (ih h).bind fun left d hleft ↦ ?_
    obtain ⟨hd, hrests⟩ := hleft
    have hlater : ∀ e, d.Onward 1 e →
        Ends (read (.level tighter)) e fun right f ↦ e.Onward 1 f ∧ Rests tighter right f :=
      fun e he ↦ ih (h.onward (hd.trans he) (by omega))
    refine (operations_ends hlater kinds left).mono fun _ e he ↦ ?_
    exact ⟨(hd.trans he.1).mono (by omega), he.2 hrests⟩

theorem assignment_ends (h : EndsBeyond 1 c) :
    Ends (read .assignment) c fun e d ↦ c.Onward 1 d ∧ Whole e d := by
  refine .read ?_
  rw [Reader.body]
  refine (level_ends h ladder).bind fun target d htarget ↦ ?_
  obtain ⟨hd, hrests⟩ := htarget
  refine .accept hd (fun hsign ↦ .here ?_) fun hcheck ↦ .pure ⟨hd, hrests, hcheck⟩
  -- The right side is an assignment, which is all that an expression is.
  have hvalue : Ends (read .assignment) d.advance fun e f ↦ d.advance.Onward 1 f ∧ Whole e f :=
    Ends.read_iff.mp (h d.advance (hsign.mono (by omega)))
  have hlater : ∀ e, d.advance.Onward 1 e → c.Onward 1 e :=
    fun e he ↦ (hsign.trans he).mono (by omega)
  split
  · refine hvalue.bind fun value e he ↦ ?_
    exact .pure ⟨hlater e he.1, he.2.of_ne_var (by simp)⟩
  · refine hvalue.bind fun value e he ↦ ?_
    exact .pure ⟨hlater e he.1, he.2.of_ne_var (by simp)⟩
  · exact .fail _ _

/-- An expression is read to its end from every cursor, and takes a token. -/
theorem expression_ends (c : Cursor) :
    Ends (read .expression) c fun e d ↦ c.Onward 1 d ∧ Whole e d := by
  induction c using Cursor.induction_onward with
  | step c ih =>
    refine .read ?_
    rw [Reader.body]
    exact assignment_ends ih

theorem endsBeyond (n : Nat) (c : Cursor) : EndsBeyond n c := fun d _ ↦ expression_ends d

/-- The expressions of a program are read to the end, and they are all there is. -/
theorem statements_ends (c : Cursor) (done : List Tree) :
    Ends (read (.statements done)) c fun _ d ↦ c.Onward 0 d ∧ d.atEnd = true := by
  induction c using Cursor.induction_onward generalizing done with
  | step c ih =>
    refine .read ?_
    rw [Reader.body]
    refine .atEnd ?_
    by_cases hend : c.atEnd = true
    · rw [if_pos hend]
      exact .pure ⟨.refl c, hend⟩
    rw [if_neg hend]
    refine (endsBeyond 0 c).read (.refl c) (by omega) fun e d hd _ ↦ ?_
    have hrest : ∀ f, c.Onward 1 f → Ends (read (.statements (e :: done))) f fun _ g ↦
        c.Onward 0 g ∧ g.atEnd = true := by
      intro f hf
      refine (ih f hf (e :: done)).mono fun _ g hg ↦ ?_
      exact ⟨(hf.trans hg.1).zero, hg.2⟩
    refine .accept hd (fun hsemicolon ↦ ?_) fun _ ↦ hrest d hd
    exact hrest _ (hsemicolon.mono (by omega))

end Descent

end ExprLang.Parser
