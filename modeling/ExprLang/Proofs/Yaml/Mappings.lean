import ExprLang.Proofs.Yaml.Queue

/-!
The lexemes of block mappings. A key comes with the colon behind it and with the start of the
mapping, if it is the first one (`Queue.Stands.gives_key`); then comes its value
(`Queue.Announced.gives_value`), and where the text ends, mappings do (`Queue.Stands.gives_end`).
-/

set_option autoImplicit false

namespace ExprLang.Yaml

namespace Queue

open Scan

variable {q : Queue} {text : List Char} {indent : Int} {outer : List Int} {column : Nat}
  {sep : Char}

/-! ### Keys -/

theorem Stands.exists_fetch (h : q.Stands indent outer column text) :
    ∃ c₁ c p, p.column = column ∧ c₁.At 1 p text ∧ c.At 4 p text ∧
      q.fetch = { closeBlocks { q with cursor := c₁, keyAllowed := true } column with
        cursor := c }.fetchHere := by
  have hsettled : ∀ c keyAllowed, Settled { q with cursor := c, keyAllowed := keyAllowed } :=
    fun _ _ ↦ ⟨h.candidate, h.outerCandidates⟩
  rcases h.reach with ⟨hallowed, p, rfl, hat⟩ | ⟨p, hat⟩
  · have htoken : ∀ c₀ fuel, c₀.At 1 p text → ∃ c, c.At 1 p text ∧
        toToken { q with cursor := c₀ } (fuel + 2) =
          some { q with cursor := c, keyAllowed := q.keyAllowed } := fun c₀ fuel hc₀ ↦
      exists_toToken_here { q with cursor := c₀ } hc₀ h.starts (fuel + 1)
    obtain ⟨c₁, c, hc₁, hc, hfetch⟩ := Queue.exists_fetch h.started hat htoken fun c _ ↦
      (hsettled c q.keyAllowed).dismissStale
    rw [hallowed] at hfetch
    exact ⟨c₁, c, p, rfl, hc₁, hc, hfetch⟩
  · obtain ⟨c₁, c, hc₁, hc, hfetch⟩ := Queue.exists_fetch h.started hat
      (fun c₀ fuel hc₀ ↦ exists_toToken_line { q with cursor := c₀ } hc₀ h.starts h.depth fuel)
      fun c _ ↦ (hsettled c true).dismissStale
    have hcolumn : (p.below.along column).column = column := Nat.zero_add column
    rw [hcolumn] at hfetch
    exact ⟨c₁, c, p.below.along column, hcolumn, hc₁, hc, hfetch⟩

/-- Where no block ends, only what is in front of the token is passed. -/
theorem Stands.exists_fetch_le (h : q.Stands indent outer column text) (hcolumn : indent ≤ column) :
    ∃ (q₀ : Queue) (p : Place), p.column = column ∧ q₀.Rests [] indent outer ∧
      q₀.keyAllowed = true ∧ q₀.cursor.At 4 p text ∧ q.fetch = q₀.fetchHere := by
  obtain ⟨c₁, c, p, hp, -, hc, hfetch⟩ := h.exists_fetch
  have hclose : closeBlocks { q with cursor := c₁, keyAllowed := true } column =
      { q with cursor := c₁, keyAllowed := true } :=
    closeBlocks_of_le (by rw [h.indent]; exact hcolumn)
  rw [hclose] at hfetch
  exact ⟨{ q with cursor := c, keyAllowed := true }, p, hp, ⟨⟨h.candidate, h.outerCandidates⟩,
    h.started, h.waiting, h.indent, h.outerIndents, h.depth⟩, rfl, hc, hfetch⟩

/-- A scalar waits that will be a key if a colon follows. -/
structure Pending (q : Queue) (key : String) (indent : Int) (outer : List Int) (start : Place) :
    Prop where
  started : q.hasStarted = true
  indent : q.indent = indent
  outerIndents : q.outerIndents = outer
  keyForbidden : q.keyAllowed = false
  depth : q.depth = 0
  outerCandidates : q.outerCandidates = []
  waiting : ∃ t, q.waiting = [t] ∧ t.lexeme = .scalar key true
  candidate : ∃ cand, q.candidate = some cand ∧ cand.number = q.taken ∧
    cand.index = start.index ∧ cand.line = start.line ∧ cand.column = start.column

theorem Pending.mayBeKey {key : String} {start : Place} (h : q.Pending key indent outer start) :
    q.mayBeKey = true := by
  obtain ⟨cand, hcandidate, hnumber, -⟩ := h.candidate
  simp [Queue.mayBeKey, hcandidate, hnumber]

/-- A candidate on this line, not too far away, is kept. -/
theorem Pending.dismissStale {key : String} {start : Place} (h : q.Pending key indent outer start)
    (hline : q.cursor.line = start.line) (hindex : q.cursor.index ≤ start.index + keyReach) :
    q.dismissStale = some q := by
  obtain ⟨cand, hcandidate, -, hcandIndex, hcandLine, -⟩ := h.candidate
  have hfresh : q.isStale cand = false := by
    simp only [isStale, hline, hcandLine, hcandIndex, Nat.lt_irrefl, decide_false, Bool.false_or,
      decide_eq_false_iff_not]
    omega
  simp [Queue.dismissStale, hcandidate, h.outerCandidates, hfresh]

theorem exists_fetchPlain_key {p : Place} {content : String} {c : Cursor}
    (h : q.Rests [] indent outer) (hallowed : q.keyAllowed = true) (hat : q.cursor.At 4 p text)
    (htext : plainText false (q.indent + 1) q.cursor = some ((content, false), c)) :
    ∃ q₁, q.fetchPlain = some q₁ ∧ q₁.Pending content indent outer p ∧ q₁.cursor = c := by
  have hinFlow : q.inFlow = false := by simp [inFlow, h.depth]
  have hwaiting : q.waiting = [] := List.map_eq_nil_iff.mp h.waiting
  have hfetch : q.fetchPlain = some { q.push (.scalar content true) with
      cursor := c
      keyAllowed := false
      candidate := some ⟨q.taken + q.waiting.length,
        !q.inFlow && q.indent = (q.cursor.column : Int), q.cursor.index, q.cursor.line,
        q.cursor.column⟩ } := by
    rw [fetchPlain, offerKey, if_pos hallowed, dismissKey, h.candidate]
    show (plainText q.inFlow (q.indent + 1) q.cursor).bind _ = _
    rw [hinFlow, htext]
    rfl
  refine ⟨_, hfetch, ⟨h.started, h.indent, h.outerIndents, rfl, h.depth, h.outerCandidates,
    ⟨⟨.scalar content true, q.cursor.index, q.cursor.line⟩, ?_, rfl⟩,
    ⟨_, rfl, ?_, hat.index, hat.line, hat.column⟩⟩, rfl⟩
  · rw [push, hwaiting]
    rfl
  · rw [hwaiting]
    rfl

/-- The blocks around the entries in `column`, when this block was the innermost one before. -/
def blocksAt (column : Nat) (indent : Int) (outer : List Int) : List Int :=
  if indent < column then indent :: outer else outer

/-- The lexemes before the value of an entry. -/
def keyLexemes (column : Nat) (indent : Int) (key : String) : List Lexeme :=
  (if indent < column then [.blockMappingStart] else []) ++ [.key, .scalar key true, .value]

theorem Pending.exists_fetchValue {key : String} {start : Place}
    (h : q.Pending key indent outer start) (hcolumn : indent ≤ start.column) :
    ∃ q', q.fetchValue = some q' ∧ q'.cursor = q.cursor.step ∧ q'.keyAllowed = false ∧
      q'.Rests (keyLexemes start.column indent key) start.column
        (blocksAt start.column indent outer) := by
  obtain ⟨hstarted, rfl, rfl, -, hdepth, houter, ⟨t, hwaiting, ht⟩, cand, hcandidate, hnumber, -, -,
    hcand⟩ := h
  have hfront : cand.number - q.taken = 0 := by omega
  by_cases hopens : q.indent < (start.column : Int)
  · refine ⟨_, by rw [fetchValue, hcandidate], ?_, rfl, ⟨rfl, ?_⟩, ?_, ?_, ?_, ?_, ?_⟩
    all_goals simp [openBlock, pushMark, push, insert, inFlow, Nat.repeat, keyLexemes, blocksAt,
      hopens, hdepth, houter, hwaiting, hfront, ht, hstarted, hcand]
  · have hsame : q.indent = (start.column : Int) := by omega
    refine ⟨_, by rw [fetchValue, hcandidate], ?_, rfl, ⟨rfl, ?_⟩, ?_, ?_, ?_, ?_, ?_⟩
    all_goals simp [openBlock, pushMark, push, insert, inFlow, Nat.repeat, keyLexemes, blocksAt,
      hdepth, houter, hwaiting, hfront, ht, hsame, hstarted, hcand]

/-- At its colon, a pending scalar becomes a key. -/
theorem Pending.exists_fetch {key : String} {start : Place} {width : Nat} {rest : List Char}
    (h : q.Pending key indent outer start) (hcolumn : indent ≤ start.column)
    (hwidth : width ≤ keyReach) (hat : q.cursor.At 0 (start.along width) (':' :: sep :: rest))
    (hsep : endsWord sep = true) :
    ∃ q', q.fetch = some q' ∧ q'.keyAllowed = false ∧
      q'.cursor.At 0 (start.along (width + 1)) (sep :: rest) ∧
      q'.Rests (keyLexemes start.column indent key) start.column
        (blocksAt start.column indent outer) := by
  have hmoved : ∀ c, Pending { q with cursor := c, keyAllowed := q.keyAllowed } key indent outer
      start := fun c ↦ ⟨h.started, h.indent, h.outerIndents, h.keyForbidden, h.depth,
    h.outerCandidates, h.waiting, h.candidate⟩
  have hstarts : Starts (':' :: sep :: rest) := ⟨solid_cons.mpr (by decide), by simp⟩
  have hstale : ∀ c, c.At 1 (start.along width) (':' :: sep :: rest) →
      Queue.dismissStale { q with cursor := c, keyAllowed := q.keyAllowed } =
        some { q with cursor := c, keyAllowed := q.keyAllowed } := by
    intro c hc
    refine (hmoved c).dismissStale hc.line ?_
    show c.index ≤ start.index + keyReach
    rw [hc.index]
    exact Nat.add_le_add_left hwidth _
  obtain ⟨c₁, c, -, hc, hfetch⟩ := Queue.exists_fetch h.started hat
    (fun c₀ fuel hc₀ ↦ exists_toToken_here { q with cursor := c₀ } hc₀ hstarts (fuel + 1)) hstale
  have hclose : closeBlocks { q with cursor := c₁, keyAllowed := q.keyAllowed }
      (start.along width).column = { q with cursor := c₁, keyAllowed := q.keyAllowed } := by
    refine closeBlocks_of_le ?_
    show q.indent ≤ ((start.column + width : Nat) : Int)
    rw [h.indent]
    omega
  obtain ⟨q', hq', hcursor, hforbidden, hrests⟩ := (hmoved c).exists_fetchValue hcolumn
  rw [hclose, fetchHere_colon hc hsep] at hfetch
  refine ⟨q', hfetch.trans hq', hforbidden, ?_, hrests⟩
  rw [hcursor, ← Place.along_along]
  exact hc.step.mono (Nat.zero_le 3)

theorem Stands.exists_peek_key {key rest : List Char}
    (h : q.Stands indent outer column (key ++ ':' :: sep :: rest)) (hkey : IsKey key)
    (hsep : endsWord sep = true) (hcolumn : indent ≤ column) :
    ∃ (q' : Queue) (p : Place), q.peek = q'.peek ∧
      q'.Rests (keyLexemes column indent (String.ofList key)) column
        (blocksAt column indent outer) ∧
      q'.keyAllowed = false ∧ column < p.column ∧ q'.cursor.At 0 p (sep :: rest) := by
  obtain ⟨q₀, p, rfl, hq₀, hallowed, hat, hfetch⟩ := h.exists_fetch_le hcolumn
  have hplain : q₀.fetchHere = q₀.fetchPlain := by
    obtain ⟨first, more, rfl⟩ := List.exists_cons_of_ne_nil hkey.1
    obtain ⟨-, hmarks, -⟩ := hkey.letter List.mem_cons_self
    exact fetchHere_plain hq₀.depth hat (.of_isKey hkey)
      (.inr ⟨hmarks '-' (by decide), hmarks '.' (by decide)⟩)
  obtain ⟨c', htext, hc'⟩ := hkey.reads_plainText (q₀.indent + 1) hsep hat
  obtain ⟨q₁, hq₁, hpending, rfl⟩ := exists_fetchPlain_key hq₀ hallowed hat htext
  obtain ⟨q', hq', hforbidden, hat', hrests⟩ :=
    hpending.exists_fetch hcolumn hkey.2.2 (hc'.mono (Nat.zero_le 2)) hsep
  refine ⟨q', _, hrests.peek_eq (by simp [keyLexemes]) fun fuel ↦ ?_, hrests, hforbidden, ?_, hat'⟩
  · obtain ⟨t, hwaiting, -⟩ := hpending.waiting
    have hindex : q₁.cursor.index ≤ p.index + keyReach := by
      rw [hc'.index]
      exact Nat.add_le_add_left hkey.2.2 _
    rw [settle_fetch (List.map_eq_nil_iff.mp h.waiting) (hfetch.trans (hplain.trans hq₁)), settle,
      hwaiting, List.isEmpty_cons, if_neg Bool.false_ne_true, hpending.dismissStale hc'.line hindex,
      Option.bind_some, hpending.mayBeKey, if_pos rfl, hq']
    rfl
  · show p.column < p.column + (key.length + 1)
    omega

/-- The value of an entry comes next, in a mapping at the innermost of these columns. -/
structure Announced (q : Queue) (block : Int) (outer : List Int) (text : List Char) : Prop
    extends q.Rests [] block outer where
  keyForbidden : q.keyAllowed = false
  reach : ∃ p : Place, block < (p.column : Int) ∧ q.cursor.At 0 p text

/-- A key is handed out with the colon behind it, and the mapping that starts there. -/
theorem Stands.gives_key {key rest : List Char} {lexemes : List Lexeme}
    (h : q.Stands indent outer column (key ++ ':' :: sep :: rest)) (hkey : IsKey key)
    (hsep : endsWord sep = true) (hcolumn : indent ≤ column)
    (hrest : ∀ q' : Queue, q'.Announced column (blocksAt column indent outer) (sep :: rest) →
      Gives lexemes q') :
    Gives (keyLexemes column indent (String.ofList key) ++ lexemes) q := by
  obtain ⟨q', p, hpeek, hrests, hforbidden, hp, hat⟩ := h.exists_peek_key hkey hsep hcolumn
  refine gives_of_peek hpeek (hrests.gives fun q'' hrests' hcursor hallowed ↦ hrest q'' ?_)
  rw [← hcursor] at hat
  exact ⟨hrests', hallowed.trans hforbidden, p, Int.ofNat_lt.mpr hp, hat⟩

/-- A key without a value on its line is followed by a mapping. -/
theorem Announced.stands {indent : Int} (h : q.Announced indent outer
    ('\n' :: (List.replicate column ' ' ++ text))) (htext : Starts text) :
    q.Stands indent outer column text := by
  obtain ⟨p, -, hat⟩ := h.reach
  exact ⟨h.toRests, htext, .inr ⟨p, hat⟩⟩

theorem Announced.exists_fetch (h : q.Announced indent outer (' ' :: text))
    (htext : Starts text) :
    ∃ (q₀ : Queue) (p : Place), indent < (p.column : Int) ∧ q₀.Rests [] indent outer ∧
      q₀.keyAllowed = false ∧ q₀.cursor.At 4 p text ∧ q.fetch = q₀.fetchHere := by
  obtain ⟨p, hp, hat⟩ := h.reach
  have hsettled : ∀ c, Settled { q with cursor := c, keyAllowed := q.keyAllowed } :=
    fun _ ↦ ⟨h.candidate, h.outerCandidates⟩
  have htoken : ∀ c₀ fuel, c₀.At 1 p (' ' :: text) → ∃ c, c.At 1 (p.along 1) text ∧
      toToken { q with cursor := c₀ } (fuel + 2) =
        some { q with cursor := c, keyAllowed := q.keyAllowed } := by
    intro c₀ fuel hc₀
    have hspace : c₀.At 1 p (List.replicate 1 ' ' ++ text) := hc₀
    exact exists_toToken_spaces { q with cursor := c₀ } hspace htext (fuel + 1)
  obtain ⟨c₁, c, -, hc, hfetch⟩ := Queue.exists_fetch h.started hat htoken fun c _ ↦
    (hsettled c).dismissStale
  have hnext : indent < ((p.along 1).column : Int) :=
    Int.lt_trans hp (Int.ofNat_lt.mpr (Nat.lt_succ_self p.column))
  have hclose : closeBlocks { q with cursor := c₁, keyAllowed := q.keyAllowed }
      (p.along 1).column = { q with cursor := c₁, keyAllowed := q.keyAllowed } := by
    refine closeBlocks_of_le ?_
    show q.indent ≤ ((p.along 1).column : Int)
    rw [h.indent]
    exact Int.le_of_lt hnext
  rw [hclose] at hfetch
  exact ⟨{ q with cursor := c }, p.along 1, hnext, ⟨⟨h.candidate, h.outerCandidates⟩, h.started,
    h.waiting, h.indent, h.outerIndents, h.depth⟩, h.keyForbidden, hc, hfetch⟩

/-- A scalar waits, with its text read up to here. -/
theorem Rests.exists_fetchPlain {content : String} {isBroken : Bool} {c : Cursor}
    (h : q.Rests [] indent outer) (hforbidden : q.keyAllowed = false)
    (htext : plainText false (indent + 1) q.cursor = some ((content, isBroken), c)) :
    ∃ q₁ : Queue, q.fetchPlain = some q₁ ∧ q₁.Rests [.scalar content true] indent outer ∧
      q₁.keyAllowed = isBroken ∧ q₁.cursor = c := by
  have hinFlow : q.inFlow = false := by simp [inFlow, h.depth]
  have hwaiting : q.waiting = [] := List.map_eq_nil_iff.mp h.waiting
  have hfetch : q.fetchPlain = some { q.push (.scalar content true) with
      cursor := c
      keyAllowed := isBroken } := by
    rw [fetchPlain, offerKey, hforbidden, if_neg Bool.false_ne_true]
    show (plainText q.inFlow (q.indent + 1) q.cursor).bind _ = _
    rw [hinFlow, h.indent, htext]
    rfl
  refine ⟨_, hfetch, ⟨⟨h.candidate, h.outerCandidates⟩, h.started, ?_, h.indent, h.outerIndents,
    h.depth⟩, rfl, rfl⟩
  rw [push, hwaiting]
  rfl

theorem Rests.exists_fetchQuoted {isDouble : Bool} {content : String} {c : Cursor}
    (h : q.Rests [] indent outer) (hforbidden : q.keyAllowed = false)
    (htext : quotedText isDouble q.cursor = some (content, c)) :
    ∃ q₁ : Queue, (q.fetchWord do return .scalar (← quotedText isDouble) false) = some q₁ ∧
      q₁.Rests [.scalar content false] indent outer ∧ q₁.cursor = c := by
  have hwaiting : q.waiting = [] := List.map_eq_nil_iff.mp h.waiting
  have hfetch : (q.fetchWord do return .scalar (← quotedText isDouble) false) =
      some { q.push (.scalar content false) with cursor := c, keyAllowed := false } := by
    rw [fetchWord, offerKey, hforbidden, if_neg Bool.false_ne_true]
    show ((quotedText isDouble q.cursor).bind _).map _ = _
    rw [htext]
    rfl
  refine ⟨_, hfetch, ⟨⟨h.candidate, h.outerCandidates⟩, h.started, ?_, h.indent, h.outerIndents,
    h.depth⟩, rfl⟩
  rw [push, hwaiting]
  rfl

section Values

variable {text written rest : List Char} {margin next : Nat} {lexemes : List Lexeme}

/-- A plain scalar takes the line end behind it along. -/
theorem Announced.gives_plain
    (h : q.Announced column outer (' ' :: (written ++ '\n' :: (List.replicate next ' ' ++ rest))))
    (hmargin : column < margin) (hlaid : Laid .plain margin text written)
    (hplain : Style.allowsPlain text = true) (hnext : next ≤ column) (hstarts : Starts rest)
    (hrest : ∀ q' : Queue, q'.Stands column outer next rest → Gives lexemes q') :
    Gives (.scalar (String.ofList text) true :: lexemes) q := by
  have hwaiting : q.waiting = [] := List.map_eq_nil_iff.mp h.waiting
  obtain ⟨first, more, line, rfl, rfl, hblank, hcomment, hprintable, hopens⟩ :=
    hlaid.exists_opens hplain (List.replicate next ' ' ++ rest)
  have hfront : Starts (first :: line ++ '\n' :: (List.replicate next ' ' ++ rest)) :=
    ⟨solid_cons.mpr ⟨hblank, hprintable.ne_lineEnd⟩, by simpa using hcomment⟩
  obtain ⟨q₀, p, hp, hq₀, hforbidden, hat, hfetch⟩ := h.exists_fetch hfront
  rw [fetchHere_plain hq₀.depth hat hopens (.inl (by omega))] at hfetch
  have hindent : (column : Int) + 1 ≤ margin := Int.ofNat_lt.mpr hmargin
  have houtside : (next : Int) < column + 1 := by omega
  obtain ⟨p', rfl, hreads⟩ := hlaid.exists_reads_plainText
    (Style.unbroken_of_allowsPlain hplain) rfl ⟨hblank, hcomment⟩ hindent houtside hstarts.1 p hp
  obtain ⟨c, htext, hat'⟩ := hreads hat
  obtain ⟨q₁, hq₁, hrests, hallowed, rfl⟩ := hq₀.exists_fetchPlain hforbidden htext
  refine gives_of_peek (hrests.peek_of_fetch hwaiting (hfetch.trans hq₁)) (hrests.gives ?_)
  intro q' hrests' hcursor hkey
  rw [← hcursor] at hat'
  exact hrest q' ⟨hrests', hstarts, .inl ⟨hkey.trans hallowed, p', rfl,
    hat'.mono (Nat.zero_le 1)⟩⟩

/-- A quoted scalar ends at its mark, with the line end still ahead. -/
theorem Announced.gives_quoted {isDouble : Bool}
    (h : q.Announced column outer (' ' :: (quoteMark isDouble ::
      (written ++ [quoteMark isDouble]) ++ '\n' :: (List.replicate next ' ' ++ rest))))
    (hmargin : 0 < margin) (hlaid : Laid (quoteStyle isDouble) margin text written)
    (hstarts : Starts rest)
    (hrest : ∀ q' : Queue, q'.Stands column outer next rest → Gives lexemes q') :
    Gives (.scalar (String.ofList text) false :: lexemes) q := by
  have hwaiting : q.waiting = [] := List.map_eq_nil_iff.mp h.waiting
  have hfront : Starts (quoteMark isDouble :: (written ++ quoteMark isDouble ::
      '\n' :: (List.replicate next ' ' ++ rest))) := by
    cases isDouble <;> exact ⟨solid_cons.mpr (by decide), by simp [quoteMark]⟩
  have hline : quoteMark isDouble :: (written ++ [quoteMark isDouble]) ++
      '\n' :: (List.replicate next ' ' ++ rest) = quoteMark isDouble :: (written ++
        quoteMark isDouble :: '\n' :: (List.replicate next ' ' ++ rest)) := by
    simp
  rw [hline] at h
  obtain ⟨q₀, p, hp, hq₀, hforbidden, hat, hfetch⟩ := h.exists_fetch hfront
  rw [fetchHere_quoted hat] at hfetch
  have hbehind : ('\n' :: (List.replicate next ' ' ++ rest)).head? ≠ some '\x27' := by simp
  obtain ⟨p', -, hreads⟩ := hlaid.exists_reads_quotedText hmargin hbehind p
  obtain ⟨c, htext, hat'⟩ := hreads hat
  obtain ⟨q₁, hq₁, hrests, rfl⟩ := hq₀.exists_fetchQuoted hforbidden htext
  refine gives_of_peek (hrests.peek_of_fetch hwaiting (hfetch.trans hq₁)) (hrests.gives ?_)
  intro q' hrests' hcursor _
  rw [← hcursor] at hat'
  exact hrest q' ⟨hrests', hstarts, .inr ⟨p', hat'⟩⟩

/-- The scalar behind a colon is handed out, and the next token stands where its line is
indented. -/
theorem Announced.gives_value {content : String} {isPlain : Bool}
    (h : q.Announced column outer (' ' :: (written ++ '\n' :: (List.replicate next ' ' ++ rest))))
    (hwrites : Writes column written content isPlain) (hnext : next ≤ column)
    (hstarts : Starts rest)
    (hrest : ∀ q' : Queue, q'.Stands column outer next rest → Gives lexemes q') :
    Gives (.scalar content isPlain :: lexemes) q := by
  cases hwrites with
  | plain hmargin hlaid hplain => exact h.gives_plain hmargin hlaid hplain hnext hstarts hrest
  | quoted hmargin hlaid => exact h.gives_quoted hmargin hlaid hstarts hrest

end Values

/-- At the end of the text a mapping inside another one ends, and that one too. -/
theorem Stands.gives_end {block : Int} (h : q.Stands block [0, -1] 0 []) (hblock : 0 < block) :
    Gives [.blockEnd, .blockEnd, .textEnd] q := by
  have hwaiting : q.waiting = [] := List.map_eq_nil_iff.mp h.waiting
  obtain ⟨c₁, c, p, hp, -, hc, hfetch⟩ := h.exists_fetch
  rw [fetchHere_end hc] at hfetch
  have hcolumn : c.column = 0 := hc.column.trans hp
  have hends : ∀ cursor keyAllowed,
      closeBlocks { q with cursor := cursor, keyAllowed := keyAllowed } 0 = { q with
        cursor := cursor
        keyAllowed := keyAllowed
        indent := 0
        outerIndents := [-1]
        waiting := [⟨.blockEnd, cursor.index, cursor.line⟩] } := by
    intro cursor keyAllowed
    simp [closeBlocks, closeFrom, inFlow, h.depth, h.indent, h.outerIndents, hblock, hwaiting]
  have hend : fetchEnd { q with
      cursor := c
      keyAllowed := true
      indent := 0
      outerIndents := [-1]
      waiting := [⟨.blockEnd, c₁.index, c₁.line⟩] } = some { q with
      cursor := c
      keyAllowed := false
      indent := -1
      outerIndents := []
      candidate := none
      waiting := [⟨.blockEnd, c₁.index, c₁.line⟩, ⟨.blockEnd, c.index, c.line⟩,
        ⟨.textEnd, c.index, c.line⟩] } := by
    simp [fetchEnd, atTopLevel, closeBlocks, closeFrom, inFlow, dismissKey, dismiss, push, hcolumn,
      h.depth, h.candidate]
  have hzero : ((0 : Nat) : Int) = 0 := rfl
  rw [hzero, hends] at hfetch
  obtain ⟨q₁, hq₁, hrests⟩ : ∃ q₁, q.fetch = some q₁ ∧
      q₁.Rests [.blockEnd, .blockEnd, .textEnd] (-1) [] :=
    ⟨_, hfetch.trans hend, ⟨rfl, h.outerCandidates⟩, h.started, rfl, rfl, rfl, h.depth⟩
  exact gives_of_peek (hrests.peek_of_fetch hwaiting hq₁)
    (hrests.gives fun _ _ _ _ ↦ trivial)

/-- The text starts with a lexeme of its own. -/
theorem gives_start {lexemes : List Lexeme} (htext : ∀ c ∈ text, IsCommon c) (hstarts : Starts text)
    (hrest : ∀ q : Queue, q.Stands (-1) [] 0 text → Gives lexemes q) :
    Gives (.textStart :: lexemes) (ofBytes (Text.Utf8.encode (String.ofList text))) := by
  obtain ⟨c, hc, hat⟩ := Cursor.exists_need (Cursor.at_ofBytes htext) 1
  obtain ⟨q₁, hq₁, hrests, hallowed, hcursor⟩ : ∃ q₁ : Queue,
      (ofBytes (Text.Utf8.encode (String.ofList text))).fetch = some q₁ ∧
      q₁.Rests [.textStart] (-1) [] ∧ q₁.keyAllowed = true ∧ q₁.cursor = c := by
    refine ⟨{ ofBytes (Text.Utf8.encode (String.ofList text)) with
      cursor := c
      waiting := [⟨.textStart, c.index, c.line⟩]
      hasStarted := true }, ?_, ⟨⟨rfl, rfl⟩, rfl, rfl, rfl, rfl, rfl⟩, rfl, rfl⟩
    rw [fetch, ofBytes, hc]
    rfl
  refine gives_of_peek (hrests.peek_of_fetch rfl hq₁) (hrests.gives ?_)
  intro q hrests' hcursor' hkey
  rw [← hcursor, ← hcursor'] at hat
  exact hrest q ⟨hrests', hstarts, .inl ⟨hkey.trans hallowed, ⟨0, 1, 0⟩, rfl,
    hat.mono (Nat.zero_le 1)⟩⟩

end Queue

end ExprLang.Yaml
