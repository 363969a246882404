import ExprLang.Token.Cursor
import Mathlib.Data.List.Basic

/-!
A cursor as a place on a tape. A tape is a list of tokens and the number of the current one. It
reads by number, and where the list has no token of that number it gives no answer at all. Read so,
the tape of a cursor answers as the cursor does, so no number is ever out of range (`tape_run`). An
operation takes the current token and goes on by one place, or it changes nothing
(`operate_cases`), so the tokens taken along a run are those it has passed (`take_index_run`). Both
together are the law of every run of operations on every list of tokens (`places_of_run`).
-/

set_option autoImplicit false

namespace ExprLang.Token

/-- What can be asked of a cursor. -/
inductive Operation
  | atEnd
  | peek
  | next
  | previous
  | check (kind : Kind)
  | checkAny (kinds : List Kind)
  | accept (kind : Kind)
  | acceptAny (kinds : List Kind)
  | expect (kind : Kind) (note : String)

inductive Answer
  | holds (b : Bool)
  | token (t : Token)
  | found (t : Option Token)
  | outcome (r : Except Fault Token)

/-- The operations that ask for tokens of certain kinds and got one. -/
def Operation.Succeeds : Operation → Answer → Prop
  | check _, .holds b | checkAny _, .holds b | accept _, .holds b => b = true
  | acceptAny _, .found t => t.isSome = true
  | expect _ _, .outcome r => r.isOk = true
  | _, _ => False

namespace Cursor

def operate (c : Cursor) : Operation → Answer × Cursor
  | .atEnd => (.holds c.atEnd, c)
  | .peek => (.token c.peek, c)
  | .next => c.next.map .token id
  | .previous => (.token c.previous, c)
  | .check kind => (.holds (c.check kind), c)
  | .checkAny kinds => (.holds (c.checkAny kinds), c)
  | .accept kind => (c.accept kind).map .holds id
  | .acceptAny kinds => (c.acceptAny kinds).map .found id
  | .expect kind note => (c.expect kind note).map .outcome id

/-- The answers to operations made one after the other, and the cursor after them. -/
def run (c : Cursor) : List Operation → List Answer × Cursor
  | [] => ([], c)
  | op :: ops => ((c.operate op).2.run ops).map ((c.operate op).1 :: ·) id

/-- The token that an operation takes, as it hands it over; `accept` hands over that it took the
current one. -/
def taken? (c : Cursor) : Operation → Option Token
  | .next => if c.index + 1 < c.tokens.length then some c.next.1 else none
  | .accept kind => if (c.accept kind).1 then some c.peek else none
  | .acceptAny kinds => (c.acceptAny kinds).1
  | .expect kind note => (c.expect kind note).1.toOption
  | _ => none

/-- The tokens taken along a run, in order. -/
def taken (c : Cursor) : List Operation → List Token
  | [] => []
  | op :: ops => (c.taken? op).toList ++ (c.operate op).2.taken ops

end Cursor

/-- Tokens in a row and the number of the current one. -/
structure Tape where
  tokens : List Token
  position : Nat

namespace Tape

def ofList (tokens : List Token) : Tape :=
  match tokens[tokens.length - 1]? with
  | none => ⟨[.zero], 0⟩
  | some t => if t.kind = .eof then ⟨tokens, 0⟩ else ⟨tokens ++ [.endAt t.span.stop], 0⟩

def atEnd (s : Tape) : Bool := s.tokens.length ≤ s.position + 1

def peek (s : Tape) : Option Token :=
  if s.atEnd then s.tokens[s.tokens.length - 1]? else s.tokens[s.position]?

def next (s : Tape) : Option (Token × Tape) := do
  let t ← s.peek
  return (t, if s.atEnd then s else { s with position := s.position + 1 })

def previous (s : Tape) : Option Token :=
  if s.position = 0 then s.tokens[0]? else s.tokens[s.position - 1]?

def check (s : Tape) (kind : Kind) : Option Bool :=
  if s.atEnd then some false else s.peek.map fun t ↦ decide (t.kind = kind)

/-- Asks for one kind after the other, up to the first that is there. -/
def checkAny (s : Tape) : List Kind → Option Bool
  | [] => some false
  | kind :: kinds => do
    if ← s.check kind then return true
    s.checkAny kinds

def accept (s : Tape) (kind : Kind) : Option (Bool × Tape) := do
  if ← s.check kind then
    let (_, s) ← s.next
    return (true, s)
  return (false, s)

def acceptAny (s : Tape) (kinds : List Kind) : Option (Option Token × Tape) := do
  if ← s.checkAny kinds then
    let (t, s) ← s.next
    return (some t, s)
  return (none, s)

def expect (s : Tape) (kind : Kind) (note : String) : Option (Except Fault Token × Tape) := do
  if ← s.check kind then
    let (t, s) ← s.next
    return (.ok t, s)
  let t ← s.peek
  return (.error (.expected note kind t.kind t.span), s)

def operate (s : Tape) : Operation → Option (Answer × Tape)
  | .atEnd => some (.holds s.atEnd, s)
  | .peek => s.peek.map (.token ·, s)
  | .next => s.next.map (·.map .token id)
  | .previous => s.previous.map (.token ·, s)
  | .check kind => (s.check kind).map (.holds ·, s)
  | .checkAny kinds => (s.checkAny kinds).map (.holds ·, s)
  | .accept kind => (s.accept kind).map (·.map .holds id)
  | .acceptAny kinds => (s.acceptAny kinds).map (·.map .found id)
  | .expect kind note => (s.expect kind note).map (·.map .outcome id)

def run (s : Tape) : List Operation → Option (List Answer × Tape)
  | [] => some ([], s)
  | op :: ops => do
    let (answer, s) ← s.operate op
    let (answers, s) ← s.run ops
    return (answer :: answers, s)

end Tape

namespace Cursor

/-! ### The tape of a cursor -/

/-- The cursor by number. -/
def tape (c : Cursor) : Tape := ⟨c.tokens, c.index⟩

theorem length_tokens (c : Cursor) : c.tokens.length = c.index + c.ahead.length + 1 := by
  simp [tokens, index, Nat.add_assoc]

/-- A cursor always stands at a token. -/
theorem index_lt (c : Cursor) : c.index < c.tokens.length := by
  rw [length_tokens]
  omega

theorem getElem?_index (c : Cursor) : c.tokens[c.index]? = some c.peek := by
  obtain ⟨passed, ahead, last⟩ := c
  cases ahead <;> simp [tokens, index, peek]

theorem tape_atEnd (c : Cursor) : c.tape.atEnd = c.atEnd := by
  obtain ⟨passed, ahead, last⟩ := c
  cases ahead <;> simp [tape, Tape.atEnd, atEnd, length_tokens, index]

theorem tape_peek (c : Cursor) : c.tape.peek = some c.peek := by
  rw [Tape.peek, tape_atEnd]
  by_cases hend : c.atEnd
  · have hlast : c.tokens.length - 1 = c.index := by
      rw [length_tokens, List.isEmpty_iff.mp hend]
      rfl
    rw [if_pos hend, ← getElem?_index, tape, hlast]
  · rw [if_neg hend, ← getElem?_index, tape]

theorem tape_advance (c : Cursor) : c.advance.tape =
    if c.atEnd then c.tape else { c.tape with position := c.tape.position + 1 } := by
  obtain ⟨passed, ahead, last⟩ := c
  cases ahead <;> simp [advance, atEnd, tape, tokens, index]

theorem tape_next (c : Cursor) : c.tape.next = some (c.peek, c.advance.tape) := by
  simp [Tape.next, tape_peek, tape_atEnd, tape_advance]

theorem tape_previous (c : Cursor) : c.tape.previous = some c.previous := by
  obtain ⟨passed, ahead, last⟩ := c
  cases passed with
  | nil => cases ahead <;> rfl
  | cons t passed => simp [Tape.previous, tape, tokens, index, previous]

theorem tape_check (c : Cursor) (kind : Kind) : c.tape.check kind = some (c.check kind) := by
  rw [Tape.check, tape_atEnd, tape_peek]
  obtain ⟨passed, ahead, last⟩ := c
  cases ahead <;> rfl

theorem tape_checkAny (c : Cursor) (kinds : List Kind) :
    c.tape.checkAny kinds = some (c.checkAny kinds) := by
  induction kinds with
  | nil => rfl
  | cons kind kinds ih =>
    rw [Tape.checkAny, tape_check, ih]
    change _ = some (c.check kind || c.checkAny kinds)
    cases c.check kind <;> rfl

/-- By number, every operation has its answer, and it is that of the cursor. -/
theorem tape_operate (c : Cursor) (op : Operation) :
    c.tape.operate op = some ((c.operate op).map id tape) := by
  cases op with
  | atEnd => rw [Tape.operate, tape_atEnd]; rfl
  | peek => rw [Tape.operate, tape_peek]; rfl
  | next => rw [Tape.operate, tape_next]; rfl
  | previous => rw [Tape.operate, tape_previous]; rfl
  | check kind => rw [Tape.operate, tape_check]; rfl
  | checkAny kinds => rw [Tape.operate, tape_checkAny]; rfl
  | accept kind =>
    rw [Tape.operate, Tape.accept, tape_check, tape_next, operate, accept]
    cases c.check kind <;> rfl
  | acceptAny kinds =>
    rw [Tape.operate, Tape.acceptAny, tape_checkAny, tape_next, operate, acceptAny]
    cases c.checkAny kinds <;> rfl
  | expect kind note =>
    rw [Tape.operate, Tape.expect, tape_check, tape_next, tape_peek, operate, expect]
    cases c.check kind <;> rfl

theorem tape_run (c : Cursor) (ops : List Operation) :
    c.tape.run ops = some ((c.run ops).map id tape) := by
  induction ops generalizing c with
  | nil => rfl
  | cons op ops ih =>
    rw [Tape.run, tape_operate]
    change ((c.operate op).2.tape.run ops).bind _ = _
    rw [ih]
    rfl

theorem tape_ofList (ts : List Token) : (ofList ts).tape = Tape.ofList ts := by
  unfold ofList Tape.ofList
  rw [← List.getLast?_eq_getElem?]
  cases hlast : ts.getLast? with
  | none => rfl
  | some t =>
    dsimp only
    split_ifs
    · simp [tape, tokens, index, List.dropLast_append_getLast? t hlast]
    · simp [tape, tokens, index]

/-! ### What an operation takes -/

section Ahead

variable {c : Cursor} {t : Token} {rest : List Token} {kind : Kind} {kinds : List Kind}

theorem peek_cons (h : c.ahead = t :: rest) : c.peek = t := by
  rw [peek, h]
  rfl

theorem check_cons (h : c.ahead = t :: rest) : c.check kind = decide (t.kind = kind) := by
  rw [check, h]

theorem exists_of_check (h : c.check kind = true) :
    ∃ t rest, c.ahead = t :: rest ∧ t.kind = kind := by
  cases hahead : c.ahead with
  | nil => simp [check, hahead] at h
  | cons t rest =>
    rw [check_cons hahead] at h
    exact ⟨t, rest, rfl, of_decide_eq_true h⟩

theorem exists_of_checkAny (h : c.checkAny kinds = true) :
    ∃ t rest, c.ahead = t :: rest ∧ t.kind ∈ kinds := by
  obtain ⟨kind, hmem, hkind⟩ := List.any_eq_true.mp h
  obtain ⟨t, rest, hahead, rfl⟩ := exists_of_check hkind
  exact ⟨t, rest, hahead, hmem⟩

theorem kind_ne_of_check (h : c.ahead = t :: rest) (hcheck : c.check kind = false) :
    t.kind ≠ kind := by
  rw [check_cons h] at hcheck
  exact of_decide_eq_false hcheck

theorem lt_of_ahead (h : c.ahead = t :: rest) : c.index + 1 < c.tokens.length := by
  rw [length_tokens, h]
  simp

theorem lt_of_check (h : c.check kind = true) : c.index + 1 < c.tokens.length := by
  obtain ⟨t, rest, hahead, -⟩ := exists_of_check h
  exact lt_of_ahead hahead

theorem lt_of_checkAny (h : c.checkAny kinds = true) : c.index + 1 < c.tokens.length := by
  obtain ⟨t, rest, hahead, -⟩ := exists_of_checkAny h
  exact lt_of_ahead hahead

end Ahead

/-- A question that is answered with yes is asked before the last token. -/
theorem lt_of_succeeds {c : Cursor} {op : Operation} (h : op.Succeeds (c.operate op).1) :
    c.index + 1 < c.tokens.length := by
  cases op with
  | atEnd | peek | next | previous => contradiction
  | check kind => exact lt_of_check h
  | checkAny kinds => exact lt_of_checkAny h
  | accept kind =>
    by_cases hcheck : c.check kind = true
    · exact lt_of_check hcheck
    · simp [operate, accept, hcheck, Operation.Succeeds] at h
  | acceptAny kinds =>
    by_cases hcheck : c.checkAny kinds = true
    · exact lt_of_checkAny hcheck
    · simp [operate, acceptAny, hcheck, Operation.Succeeds] at h
  | expect kind note =>
    by_cases hcheck : c.check kind = true
    · exact lt_of_check hcheck
    · simp [operate, expect, hcheck, Operation.Succeeds, Except.isOk, Except.toBool] at h

/-- An operation passes the current token, which is not the last one, and takes it, or it takes
nothing and changes nothing. -/
theorem operate_cases (c : Cursor) (op : Operation) :
    (c.index + 1 < c.tokens.length ∧ c.taken? op = some c.peek ∧ (c.operate op).2 = c.advance) ∨
      (c.taken? op = none ∧ (c.operate op).2 = c) := by
  cases op with
  | atEnd | peek | previous | check | checkAny => exact .inr ⟨rfl, rfl⟩
  | next =>
    by_cases hlast : c.index + 1 < c.tokens.length
    · exact .inl ⟨hlast, if_pos hlast, rfl⟩
    · have hahead : c.ahead = [] := by
        rw [length_tokens] at hlast
        exact List.eq_nil_of_length_eq_zero (by omega)
      refine .inr ⟨if_neg hlast, ?_⟩
      change c.advance = c
      rw [advance, hahead]
  | accept kind =>
    by_cases hcheck : c.check kind = true
    · exact .inl ⟨lt_of_check hcheck, by simp [taken?, accept, hcheck],
        by simp [operate, accept, hcheck]⟩
    · exact .inr ⟨by simp [taken?, accept, hcheck], by simp [operate, accept, hcheck]⟩
  | acceptAny kinds =>
    by_cases hcheck : c.checkAny kinds = true
    · exact .inl ⟨lt_of_checkAny hcheck, by simp [taken?, acceptAny, hcheck],
        by simp [operate, acceptAny, hcheck]⟩
    · exact .inr ⟨by simp [taken?, acceptAny, hcheck], by simp [operate, acceptAny, hcheck]⟩
  | expect kind note =>
    by_cases hcheck : c.check kind = true
    · exact .inl ⟨lt_of_check hcheck, by simp [taken?, expect, hcheck, Except.toOption],
        by simp [operate, expect, hcheck]⟩
    · exact .inr ⟨by simp [taken?, expect, hcheck, Except.toOption],
        by simp [operate, expect, hcheck]⟩

theorem tokens_advance (c : Cursor) : c.advance.tokens = c.tokens := by
  obtain ⟨passed, ahead, last⟩ := c
  cases ahead <;> simp [advance, tokens]

theorem index_advance {c : Cursor} (h : c.index + 1 < c.tokens.length) :
    c.advance.index = c.index + 1 := by
  obtain ⟨passed, ahead, last⟩ := c
  cases ahead with
  | nil =>
    rw [length_tokens] at h
    simp at h
  | cons t rest => rfl

theorem tokens_operate (c : Cursor) (op : Operation) : (c.operate op).2.tokens = c.tokens := by
  obtain ⟨-, -, hpass⟩ | ⟨-, hstay⟩ := c.operate_cases op
  · rw [hpass, tokens_advance]
  · rw [hstay]

/-- One operation: before the place it leads to stand the tokens before its own place and what it
takes. -/
theorem take_index_operate (c : Cursor) (op : Operation) :
    c.tokens.take (c.operate op).2.index = c.tokens.take c.index ++ (c.taken? op).toList := by
  obtain ⟨hlast, htaken, hpass⟩ | ⟨htaken, hstay⟩ := c.operate_cases op
  · rw [htaken, hpass, index_advance hlast, List.take_add_one, getElem?_index]
  · rw [htaken, hstay, Option.toList_none, List.append_nil]

/-- What was taken along a run stands between the place where it began and the place it led to. -/
theorem take_index_run (c : Cursor) (ops : List Operation) :
    (c.run ops).2.tokens = c.tokens ∧
      c.tokens.take (c.run ops).2.index = c.tokens.take c.index ++ c.taken ops := by
  induction ops generalizing c with
  | nil => exact ⟨rfl, (List.append_nil _).symm⟩
  | cons op ops ih =>
    obtain ⟨htokens, htake⟩ := ih (c.operate op).2
    rw [tokens_operate] at htokens htake
    rw [take_index_operate, List.append_assoc] at htake
    exact ⟨htokens, htake⟩

theorem index_ofList (ts : List Token) : (ofList ts).index = 0 := by
  unfold ofList
  split
  · rfl
  · split_ifs <;> rfl

/-- Whatever operations follow one another on a cursor of any list of tokens: each reading by number
has its token, with the answers of the cursor; the cursor stands at a token of the same list; the
tokens taken so far are those before it, in order. The next operation goes on by one place if it
takes a token and changes nothing if it does not, and at the last token no question for a kind is
answered with yes. -/
theorem places_of_run (ts : List Token) (ops : List Operation) :
    let c := ((ofList ts).run ops).2
    (Tape.ofList ts).run ops = some (((ofList ts).run ops).1, ⟨c.tokens, c.index⟩) ∧
      c.tokens = (Tape.ofList ts).tokens ∧
      c.index < c.tokens.length ∧
      (ofList ts).taken ops = c.tokens.take c.index ∧
      ∀ op, let d := (c.operate op).2
        ((c.taken? op).isSome = true → d.tokens = c.tokens ∧ d.index = c.index + 1) ∧
        ((c.taken? op).isSome = false → d = c) ∧
        (c.index + 1 = c.tokens.length → ¬op.Succeeds (c.operate op).1) := by
  intro c
  obtain ⟨htokens, htake⟩ := (ofList ts).take_index_run ops
  refine ⟨?_, ?_, c.index_lt, ?_, fun op ↦ ⟨fun htaken ↦ ⟨c.tokens_operate op, ?_⟩, fun htaken ↦ ?_,
    fun hlast hsucceeds ↦ ?_⟩⟩
  · rw [← tape_ofList, tape_run]
    rfl
  · rw [← tape_ofList]
    exact htokens
  · change _ = ((ofList ts).run ops).2.tokens.take _
    rw [htokens, htake, index_ofList, List.take_zero, List.nil_append]
  · obtain ⟨hbefore, -, hpass⟩ | ⟨hnone, -⟩ := c.operate_cases op
    · rw [hpass, index_advance hbefore]
    · rw [hnone] at htaken
      contradiction
  · obtain ⟨-, hsome, -⟩ | ⟨-, hstay⟩ := c.operate_cases op
    · rw [hsome] at htaken
      contradiction
    · exact hstay
  · have hbefore := lt_of_succeeds hsucceeds
    omega

end Cursor

end ExprLang.Token
