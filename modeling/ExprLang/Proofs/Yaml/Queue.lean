import ExprLang.Proofs.Yaml.Values

/-!
How a queue hands its lexemes out. What waits comes first (`Queue.Rests.gives`); when nothing waits,
what is in front of the next token is passed (`Queue.exists_fetch`), and the first characters decide
how it is fetched.
-/

set_option autoImplicit false

namespace ExprLang.Yaml

namespace Queue

open Scan

variable {q : Queue} {text : List Char}

/-- The queue hands these lexemes out, one after the other. Looking at one of them changes
nothing. -/
def Gives : List Lexeme → Queue → Prop
  | [], _ => True
  | lexeme :: rest, q => ∃ t q', q.peek = some (t, q') ∧ q'.peek = some (t, q') ∧
      t.lexeme = lexeme ∧ Gives rest q'.pop

theorem gives_of_peek {lexemes : List Lexeme} {q' : Queue} (hpeek : q.peek = q'.peek)
    (h : Gives lexemes q') : Gives lexemes q := by
  cases lexemes with
  | nil => trivial
  | cons lexeme rest =>
    obtain ⟨t, r, ht, hrest⟩ := h
    exact ⟨t, r, hpeek.trans ht, hrest⟩

/-! ### Settled queues -/

/-- Nothing can still turn out to be a key. -/
structure Settled (q : Queue) : Prop where
  candidate : q.candidate = none
  outerCandidates : q.outerCandidates = []

theorem Settled.dismissStale (h : q.Settled) : q.dismissStale = some q := by
  obtain ⟨hcandidate, houter⟩ := h
  simp [Queue.dismissStale, hcandidate, houter]

theorem Settled.mayBeKey (h : q.Settled) : q.mayBeKey = false := by
  obtain ⟨hcandidate, houter⟩ := h
  simp [Queue.mayBeKey, hcandidate, houter]

theorem Settled.settle {t : Token} {rest : List Token} (h : q.Settled)
    (hwaiting : q.waiting = t :: rest) (fuel : Nat) : q.settle (fuel + 1) = some q := by
  rw [Queue.settle, hwaiting, List.isEmpty_cons, if_neg Bool.false_ne_true, h.dismissStale,
    Option.bind_some, h.mayBeKey, if_neg Bool.false_ne_true]

theorem Settled.peek {t : Token} {rest : List Token} (h : q.Settled)
    (hwaiting : q.waiting = t :: rest) : q.peek = some (t, q) := by
  rw [Queue.peek, h.settle hwaiting, Option.bind_some, hwaiting]
  rfl

/-- These lexemes wait, in blocks at these columns and outside flow collections. -/
structure Rests (q : Queue) (lexemes : List Lexeme) (indent : Int) (outer : List Int) : Prop
    extends q.Settled where
  started : q.hasStarted = true
  waiting : q.waiting.map (·.lexeme) = lexemes
  indent : q.indent = indent
  outerIndents : q.outerIndents = outer
  depth : q.depth = 0

/-- What waits comes first. -/
theorem Rests.gives {lexemes rest : List Lexeme} {indent : Int} {outer : List Int}
    (h : q.Rests lexemes indent outer)
    (hrest : ∀ q', q'.Rests [] indent outer → q'.cursor = q.cursor →
      q'.keyAllowed = q.keyAllowed → Gives rest q') : Gives (lexemes ++ rest) q := by
  induction lexemes generalizing q with
  | nil => exact hrest q h rfl rfl
  | cons lexeme lexemes ih =>
    obtain ⟨hsettled, hstarted, hwaiting, hindent, houter, hdepth⟩ := h
    obtain ⟨t, tokens, hq, rfl, htokens⟩ := List.map_eq_cons_iff.mp hwaiting
    refine ⟨t, q, hsettled.peek hq, hsettled.peek hq, rfl, ih ?_ hrest⟩
    refine ⟨⟨hsettled.candidate, hsettled.outerCandidates⟩, hstarted, ?_, hindent, houter, hdepth⟩
    rw [pop, hq]
    exact htokens

/-- A queue that settles so has the same lexemes ahead. -/
theorem Rests.peek_eq {lexemes : List Lexeme} {indent : Int} {outer : List Int} {q₀ : Queue}
    (h : q.Rests lexemes indent outer) (hsome : lexemes ≠ [])
    (hsettle : ∀ fuel, q₀.settle (fuel + 3) = q.settle (fuel + 1)) : q₀.peek = q.peek := by
  obtain ⟨lexeme, more, rfl⟩ := List.exists_cons_of_ne_nil hsome
  obtain ⟨t, tokens, hq, -, -⟩ := List.map_eq_cons_iff.mp h.waiting
  rw [h.peek hq, Queue.peek, hsettle, h.settle hq, Option.bind_some, hq]
  rfl

theorem settle_fetch {q₁ : Queue} (h : q.waiting = []) (hfetch : q.fetch = some q₁) (fuel : Nat) :
    q.settle (fuel + 1) = q₁.settle fuel := by
  rw [settle, h, List.isEmpty_nil, if_pos rfl, hfetch]
  rfl

theorem Rests.peek_of_fetch {lexeme : Lexeme} {lexemes : List Lexeme} {indent : Int}
    {outer : List Int} {q₀ : Queue} (h : q.Rests (lexeme :: lexemes) indent outer)
    (hwaiting : q₀.waiting = []) (hfetch : q₀.fetch = some q) : q₀.peek = q.peek := by
  refine h.peek_eq (List.cons_ne_nil _ _) fun fuel ↦ ?_
  obtain ⟨t, tokens, hq, -, -⟩ := List.map_eq_cons_iff.mp h.waiting
  rw [settle_fetch hwaiting hfetch, h.settle hq, h.settle hq]

/-! ### Between tokens -/

/-- A token starts at the front of the text, or the text has ended. -/
def Starts (text : List Char) : Prop := Solid text ∧ text.head? ≠ some '#'

/-- Passes what stands before the next token of the line. -/
def leading (inFlow keyAllowed : Bool) : Scan Unit := do
  let passMark : Scan Unit := do
    need 1
    let c ← get
    if c.column = 0 && c.sawMark then step
  passMark
  let _ ← takeWhile fun c ↦ c = ' ' || (c = '\t' && (inFlow || !keyAllowed))
  if (← char 0) = '#' then
    let _ ← takeWhile fun c ↦ !endsLine c

theorem toToken_succ (q : Queue) (fuel : Nat) : q.toToken (fuel + 1) = (do
    let (_, cursor) ← leading q.inFlow q.keyAllowed q.cursor
    if isBreak (cursor.char 0) then
      let (_, cursor) ← passBreak cursor
      { q with cursor := cursor, keyAllowed := q.keyAllowed || !q.inFlow }.toToken fuel
    else return { q with cursor := cursor }) := by
  rw [toToken]
  rfl

theorem reads_leading (inFlow keyAllowed : Bool) {c : Cursor} {count : Nat} {p : Place}
    {spaces : Nat} (hat : c.At count p (List.replicate spaces ' ' ++ text))
    (hspace : text.head? ≠ some ' ') (hcomment : text.head? ≠ some '#') :
    Reads (leading inFlow keyAllowed) c () 1 (p.along spaces) text := by
  have hmark : ∀ {c : Cursor}, c.At 1 p (List.replicate spaces ' ' ++ text) →
      Reads (if c.column = 0 && c.sawMark then step else pure ()) c () 1 p
        (List.replicate spaces ' ' ++ text) := by
    intro c hc
    rw [hc.mark, Bool.and_false, if_neg Bool.false_ne_true]
    exact reads_pure hc ()
  refine ((reads_need hat 1).bind fun c hc ↦ reads_get (hmark hc)).bind fun c hc ↦ ?_
  have hblank : ∀ ch ∈ List.replicate spaces ' ',
      (decide (ch = ' ') || decide (ch = '\t') && (inFlow || !keyAllowed)) = true := by
    intro ch hch
    rw [List.eq_of_mem_replicate hch]
    rfl
  have hnext : text.getD 0 endMark ≠ ' ' ∧ text.getD 0 endMark ≠ '\t' ∧
      text.getD 0 endMark ≠ '#' := by
    cases text with
    | nil => decide
    | cons first rest =>
      have htab : first ≠ '\t' := by
        rintro rfl
        rcases hat.common _ (List.mem_append_right _ List.mem_cons_self) with h | ⟨hlow, -⟩
        · contradiction
        · contradiction
      exact ⟨fun h ↦ hspace (congrArg some h), htab, fun h ↦ hcomment (congrArg some h)⟩
  have hstop : (decide (text.getD 0 endMark = ' ') ||
      decide (text.getD 0 endMark = '\t') && (inFlow || !keyAllowed)) = false := by
    rw [decide_eq_false hnext.1, decide_eq_false hnext.2.1]
    rfl
  refine (reads_takeWhile hc hblank hstop).bind fun c hc ↦ ?_
  rw [List.length_replicate] at hc
  refine reads_char hc Nat.one_pos ?_
  rw [if_neg hnext.2.2]
  exact reads_pure hc ()

theorem exists_toToken_spaces (q : Queue) {count : Nat} {p : Place} {spaces : Nat}
    (hat : q.cursor.At count p (List.replicate spaces ' ' ++ text)) (htext : Starts text)
    (fuel : Nat) : ∃ c, c.At 1 (p.along spaces) text ∧
      q.toToken (fuel + 1) = some { q with cursor := c } := by
  have hspace : text.head? ≠ some ' ' := fun h ↦ (htext.1 ' ' h).1 rfl
  obtain ⟨c, hc, hat⟩ := reads_leading q.inFlow q.keyAllowed hat hspace htext.2
  refine ⟨c, hat, ?_⟩
  have hbreak : isBreak (c.char 0) = false := by
    rw [Cursor.char_eq hat Nat.one_pos]
    exact (htext.1.stops hat.common).2
  rw [toToken_succ, hc]
  show (if isBreak (c.char 0) = true then _ else _) = _
  rw [hbreak]
  rfl

theorem exists_toToken_here (q : Queue) {count : Nat} {p : Place} (hat : q.cursor.At count p text)
    (htext : Starts text) (fuel : Nat) :
    ∃ c, c.At 1 p text ∧ q.toToken (fuel + 1) = some { q with cursor := c } := by
  have hhere : q.cursor.At count p (List.replicate 0 ' ' ++ text) := hat
  exact exists_toToken_spaces q hhere htext fuel

theorem exists_toToken_line (q : Queue) {count : Nat} {p : Place} {spaces : Nat}
    (hat : q.cursor.At count p ('\n' :: (List.replicate spaces ' ' ++ text)))
    (htext : Starts text) (hflow : q.depth = 0) (fuel : Nat) :
    ∃ c, c.At 1 (p.below.along spaces) text ∧
      q.toToken (fuel + 2) = some { q with cursor := c, keyAllowed := true } := by
  have hhere : q.cursor.At count p
      (List.replicate 0 ' ' ++ '\n' :: (List.replicate spaces ' ' ++ text)) := hat
  obtain ⟨c₁, hc₁, hat₁⟩ := reads_leading q.inFlow q.keyAllowed hhere nofun nofun
  obtain ⟨c₂, hc₂, hat₂⟩ := reads_passBreak hat₁
  have hflow : q.inFlow = false := by simp [inFlow, hflow]
  obtain ⟨c₃, hat₃, hc₃⟩ := exists_toToken_spaces
    { q with cursor := c₂, keyAllowed := q.keyAllowed || !q.inFlow } hat₂ htext fuel
  refine ⟨c₃, hat₃, ?_⟩
  have hbreak : isBreak (c₁.char 0) = true := by
    rw [Cursor.char_eq hat₁ Nat.one_pos]
    rfl
  rw [toToken_succ, hc₁]
  show (if isBreak (c₁.char 0) = true then _ else _) = _
  rw [hbreak, if_pos rfl, hc₂]
  show toToken _ _ = _
  rw [hc₃, hflow]
  simp

/-- The next token stands in `column`, at the front of this text, and a key may start there. -/
structure Stands (q : Queue) (indent : Int) (outer : List Int) (column : Nat) (text : List Char) :
    Prop extends q.Rests [] indent outer where
  starts : Starts text
  reach : (q.keyAllowed = true ∧ ∃ p, p.column = column ∧ q.cursor.At 0 p text) ∨
    ∃ p, q.cursor.At 0 p ('\n' :: (List.replicate column ' ' ++ text))

/-- A block goes on in its column, or further right. -/
theorem closeBlocks_of_le {column : Int} (h : q.indent ≤ column) : q.closeBlocks column = q := by
  have hclose : ∀ token, closeFrom column token q.indent q.outerIndents =
      (q.indent, q.outerIndents, []) := by
    intro token
    cases q.outerIndents with
    | nil => rfl
    | cons next outer => rw [closeFrom, if_neg (Int.not_lt.mpr h)]
  unfold closeBlocks
  split_ifs
  · rfl
  · simp only [hclose, List.append_nil]

section Fetch

variable {keyAllowed : Bool} {p₀ p : Place} {front : List Char}

/-- Before a token is fetched, what is in front of it is passed, and blocks further right end. -/
theorem exists_fetch (hstarted : q.hasStarted = true) (hat : q.cursor.At 0 p₀ front)
    (htoken : ∀ c₀ fuel, c₀.At 1 p₀ front → ∃ c, c.At 1 p text ∧
      toToken { q with cursor := c₀ } (fuel + 2) =
        some { q with cursor := c, keyAllowed := keyAllowed })
    (hstale : ∀ c, c.At 1 p text → dismissStale { q with cursor := c, keyAllowed := keyAllowed } =
      some { q with cursor := c, keyAllowed := keyAllowed }) :
    ∃ c₁ c, c₁.At 1 p text ∧ c.At 4 p text ∧ q.fetch =
      { closeBlocks { q with cursor := c₁, keyAllowed := keyAllowed } p.column with
        cursor := c }.fetchHere := by
  obtain ⟨c₀, hc₀, hat₀⟩ := Cursor.exists_need hat 1
  obtain ⟨c₁, hat₁, hc₁⟩ := htoken c₀ c₀.size hat₀
  obtain ⟨c, hc, hat⟩ := Cursor.exists_need hat₁ 4
  refine ⟨c₁, c, hat₁, hat, ?_⟩
  have hcursor : ∀ (q : Queue) column, (q.closeBlocks column).cursor = q.cursor := by
    intro q column
    unfold closeBlocks
    split_ifs <;> rfl
  rw [fetch, hc₀]
  show (if (!q.hasStarted) = true then _ else (toToken _ _).bind _) = _
  rw [if_neg (by simp [hstarted]), hc₁]
  show (dismissStale _).bind _ = _
  rw [hstale c₁ hat₁]
  show (Cursor.need 4 (closeBlocks _ (c₁.column : Int)).cursor).bind _ = _
  rw [hcursor, hc, hat₁.column]
  rfl

end Fetch

/-! ### Kinds of tokens -/

section Kinds

variable {first sep : Char} {p : Place} {line : List Char}

theorem fetchHere_plain (hflow : q.depth = 0) (hat : q.cursor.At 4 p (first :: line))
    (h : Opens first (line.getD 0 endMark)) (hplace : 0 < p.column ∨ first ≠ '-' ∧ first ≠ '.') :
    q.fetchHere = q.fetchPlain := by
  have hfirst : q.cursor.char 0 = first := Cursor.char_zero hat
  have hnext : q.cursor.char 1 = line.getD 0 endMark := Cursor.char_eq hat (by decide)
  have hdivider := Cursor.atDivider_eq_false hat hplace
  generalize line.getD 0 endMark = next at h hnext
  have hstarts := h.startsPlain
  obtain ⟨hreserved, hends, hmark⟩ := h
  have hend : first ≠ endMark := by
    rintro rfl
    contradiction
  have hinFlow : q.inFlow = false := by simp [inFlow, hflow]
  have hmarks : (first = '-' && endsWord next) = false ∧ (first = '?' && endsWord next) = false ∧
      (first = ':' && endsWord next) = false := by
    by_cases hone : first = '-' ∨ first = '?' ∨ first = ':'
    · simp [hmark hone]
    · simp_all
  simp [Style.isReserved] at hreserved
  unfold fetchHere
  simp only [hfirst, hnext, hend, hreserved, hdivider, hinFlow, hstarts, hmarks, Bool.false_or,
    decide_false, Bool.and_false, Bool.false_and, Bool.false_eq_true, if_false, if_true]
  split
  case h_11 => rfl
  all_goals simp at hreserved

theorem fetchHere_quoted {isDouble : Bool} (hat : q.cursor.At 4 p (quoteMark isDouble :: line)) :
    q.fetchHere = q.fetchWord do return .scalar (← quotedText isDouble) false := by
  have hfirst : q.cursor.char 0 = quoteMark isDouble := Cursor.char_zero hat
  have hdivider : q.cursor.atDivider = false := by
    refine Cursor.atDivider_eq_false hat (.inr ?_)
    cases isDouble <;> decide
  cases isDouble with
  | false => simp [fetchHere, hfirst, hdivider, quoteMark, endMark]
  | true => simp [fetchHere, hfirst, hdivider, quoteMark, endMark]

theorem fetchHere_colon (hat : q.cursor.At 4 p (':' :: sep :: line))
    (hsep : endsWord sep = true) : q.fetchHere = q.fetchValue := by
  have hfirst : q.cursor.char 0 = ':' := Cursor.char_zero hat
  have hnext : q.cursor.char 1 = sep := Cursor.char_eq hat (by decide)
  have hdivider : q.cursor.atDivider = false :=
    Cursor.atDivider_eq_false hat (.inr (by decide))
  simp [fetchHere, hfirst, hnext, hsep, hdivider, endMark]

theorem fetchHere_end (hat : q.cursor.At 4 p []) : q.fetchHere = q.fetchEnd := by
  have hfirst : q.cursor.char 0 = endMark := Cursor.char_eq hat (by decide)
  simp [fetchHere, hfirst]

end Kinds

end Queue

end ExprLang.Yaml
