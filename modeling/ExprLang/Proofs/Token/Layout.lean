import ExprLang.Proofs.Token.Places

/-!
Layout does not matter. The text of a token brings the token about when it is read by itself, and
also when something follows (`Draft.Recurs`), so it is one lexeme (`lexemes_characters`). Lexemes
that are laid out anew, with layout between any two of them, are therefore the same lexemes
(`lexemes_laidOut`), and they are scanned into the same tokens at other places (`scan_laidOut`).
-/

set_option autoImplicit false

namespace ExprLang.Token

/-! ### The text of a token by itself -/

/-- Read where the draft started, its text leads to the draft again, whatever follows. -/
def Draft.Recurs (d : Draft) : Prop :=
  ∀ more, drafts d.start none (d.characters ++ more) =
    drafts (placeAfter d.start d.characters) (some d) more

theorem Draft.recurs_begun (place : Position) {c : Char} (h : isLayout c = false) :
    Draft.Recurs ⟨place, c, []⟩ := by
  intro more
  have hbegun : begun place c = some ⟨place, c, []⟩ := if_neg (by simp [h])
  change drafts (Scanner.advance place c) (begun place c) more = _
  rw [hbegun]
  rfl

theorem Draft.Recurs.push {d : Draft} (h : d.Recurs) {c : Char} (hc : d.joins c = true) :
    (d.push c).Recurs := by
  intro more
  have hplace : placeAfter d.start (d.characters ++ [c]) =
      Scanner.advance (placeAfter d.start d.characters) c := List.foldl_concat ..
  rw [Draft.characters_push, ← List.append_cons]
  change drafts d.start none (d.characters ++ c :: more) = drafts (placeAfter d.start _) _ more
  rw [h, drafts_of_joins hc, hplace]

/-- The text of each token that a text falls into is a lexeme by itself. -/
theorem lexemes_characters {place : Position} {text : List Char} {d : Draft}
    (hd : d ∈ drafts place none text) : lexemes d.characters = [d.characters] := by
  have hrecurs : d.Recurs :=
    forall_mem_drafts (fun _ _ h hc ↦ h.push hc) (fun _ _ h place ↦ Draft.recurs_begun place h)
      (by simp) d hd
  have halone : drafts d.start none d.characters = [d] := by
    have h := hrecurs []
    rwa [List.append_nil] at h
  rw [← map_characters_drafts_none d.characters d.start, halone]
  rfl

theorem lexemes_of_mem {text lexeme : List Char} (h : lexeme ∈ lexemes text) :
    lexemes lexeme = [lexeme] := by
  obtain ⟨d, hd, rfl⟩ := List.mem_map.mp h
  exact lexemes_characters hd

/-! ### The lexemes of the tokens of a scan -/

theorem lexemes_of_mapM_finish {ds : List Draft} {ts : List Token}
    (h : ds.mapM Draft.finish = .ok ts) :
    (ts.map fun t ↦ t.lexeme.toList) = ds.map Draft.characters ∧
      (ds.map Draft.characters).mapM read = .ok (ts.map key) := by
  induction ds generalizing ts with
  | nil =>
    cases h
    exact ⟨rfl, rfl⟩
  | cons d ds ih =>
    obtain ⟨t, others, hfirst, hothers, rfl⟩ := mapM_cons_eq_ok h
    obtain ⟨hlexemes, hkeys⟩ := ih hothers
    rw [Draft.finish_eq] at hfirst
    cases hread : read d.characters with
    | error cause => simp [hread] at hfirst
    | ok k =>
      simp only [hread, Except.ok.injEq] at hfirst
      subst hfirst
      constructor
      · rw [List.map_cons, List.map_cons, hlexemes, String.toList_ofList]
      · rw [List.map_cons, List.mapM_cons, hread, hkeys]
        rfl

/-- The tokens of a source have its lexemes, and mean what these mean. -/
theorem lexemes_of_scan {file source : String} {ts : List Token} {place : Position}
    (h : scan file source = .ok (ts ++ [.endAt place])) :
    (ts.map fun t ↦ t.lexeme.toList) = lexemes source.toList ∧
      (lexemes source.toList).mapM read = .ok (ts.map key) := by
  rw [scan_eq] at h
  rw [← map_characters_drafts_none source.toList ⟨file, 1, 1⟩]
  cases hts : (drafts ⟨file, 1, 1⟩ none source.toList).mapM Draft.finish with
  | error fault => simp [hts, Except.map] at h
  | ok others =>
    simp only [hts, Except.map, Except.ok.injEq] at h
    obtain ⟨rfl, -⟩ := List.append_inj' h rfl
    exact lexemes_of_mapM_finish hts

/-! ### Lexemes laid out anew -/

/-- Words in a row, with `gap 0` before the first one, `gap i` before the word number `i`, and the
last gap behind all of them. -/
def laidOut (gap : Nat → String) : List String → String
  | [] => gap 0
  | word :: rest => gap 0 ++ word ++ laidOut (fun i ↦ gap (i + 1)) rest

theorem lexemes_layout_append {blanks : List Char} (h : ∀ c ∈ blanks, isLayout c = true)
    (rest : List Char) : lexemes (blanks ++ rest) = lexemes rest := by
  induction blanks with
  | nil => rfl
  | cons c blanks ih =>
    obtain ⟨hc, hblanks⟩ := List.forall_mem_cons.mp h
    rw [List.cons_append, lexemes_cons_of_layout hc, ih hblanks]

/-- A text may be cut where layout, or nothing at all, follows. -/
theorem lexemes_append_layout (first : List Char) {blanks : List Char} (rest : List Char)
    (h : ∀ c ∈ blanks, isLayout c = true) (hrest : blanks = [] → rest = []) :
    lexemes (first ++ (blanks ++ rest)) = lexemes first ++ lexemes rest := by
  cases blanks with
  | nil => rw [hrest rfl, List.append_nil, List.append_nil, lexemes_nil, List.append_nil]
  | cons c blanks =>
    have hseparator : isSeparator c = true := by simp [isSeparator, h c List.mem_cons_self]
    rw [List.cons_append, lexemes_append_cons first hseparator, ← List.cons_append,
      lexemes_layout_append h]

/-- The words of a layout are its lexemes, if each of them is one by itself and only the outer gaps
may be empty. -/
theorem lexemes_laidOut {gap : Nat → String} {words : List String}
    (halone : ∀ word ∈ words, lexemes word.toList = [word.toList])
    (hgap : ∀ i, ∀ c ∈ (gap i).toList, isLayout c = true)
    (hne : ∀ i, 0 < i → i < words.length → gap i ≠ "") :
    lexemes (laidOut gap words).toList = words.map String.toList := by
  induction words generalizing gap with
  | nil =>
    have hblank := lexemes_layout_append (hgap 0) []
    rwa [List.append_nil] at hblank
  | cons word rest ih =>
    obtain ⟨hword, hothers⟩ := List.forall_mem_cons.mp halone
    have hrest : lexemes (laidOut (fun i ↦ gap (i + 1)) rest).toList = rest.map String.toList :=
      ih hothers (fun i ↦ hgap (i + 1))
        fun i _ hi ↦ hne (i + 1) (Nat.succ_pos i) (Nat.succ_lt_succ hi)
    rw [laidOut, String.toList_append, String.toList_append, List.append_assoc,
      lexemes_layout_append (hgap 0), List.map_cons, ← hrest]
    -- The gap behind the word is the first one of the rest, and is empty only if no word follows.
    cases rest with
    | nil =>
      have hcut := lexemes_append_layout word.toList [] (hgap 1) fun _ ↦ rfl
      rw [List.append_nil, hword] at hcut
      exact hcut.trans (congrArg _ hrest.symm)
    | cons next rest =>
      have hsome : (gap 1).toList ≠ [] := by
        simpa using hne 1 Nat.one_pos (by simp)
      rw [laidOut, String.toList_append, String.toList_append, List.append_assoc,
        lexemes_append_layout _ _ (hgap 1) fun hnil ↦ absurd hnil hsome,
        lexemes_layout_append (hgap 1), hword]
      rfl

/-! ### Scans of what was laid out anew -/

/-- What a token is, wherever it stands. -/
def face (t : Token) : Kind × String × Option Literal := (t.kind, t.lexeme, t.literal)

/-- The lexemes of the tokens before the end mark. -/
def words (tokens : List Token) : List String :=
  (tokens.filter fun t ↦ t.kind ≠ .eof).map lexeme

theorem words_concat {ts : List Token} (h : ∀ t ∈ ts, t.kind ≠ .eof) (place : Position) :
    words (ts ++ [.endAt place]) = ts.map lexeme := by
  have hall : ts.filter (fun t ↦ t.kind ≠ .eof) = ts :=
    List.filter_eq_self.mpr fun t ht ↦ decide_eq_true (h t ht)
  have hend : [Token.endAt place].filter (fun t ↦ t.kind ≠ .eof) = [] := rfl
  rw [words, List.filter_append, hall, hend, List.append_nil]

/-- Tokens of the same meaning and the same lexemes look alike. -/
theorem map_face_eq {ts us : List Token} (hkeys : ts.map key = us.map key)
    (hlexemes : (ts.map fun t ↦ t.lexeme.toList) = us.map fun t ↦ t.lexeme.toList) :
    ts.map face = us.map face := by
  induction ts generalizing us with
  | nil => cases us <;> simp_all
  | cons t ts ih =>
    cases us with
    | nil => simp at hkeys
    | cons u us =>
      simp only [List.map_cons, List.cons.injEq, String.toList_inj] at hkeys hlexemes
      obtain ⟨hkind, hliteral⟩ := Prod.mk.inj hkeys.1
      have hface : t.face = u.face := by simp only [face, hkind, hlexemes.1, hliteral]
      rw [List.map_cons, List.map_cons, hface, ih hkeys.2 hlexemes.2]

/-- Assumes: the source is scanned, the gaps are spaces, tabs, carriage returns and line ends, and
none between two lexemes is empty. The lexemes of the source, laid out anew with these gaps, are
scanned into tokens of the same kinds, with the same lexemes and the same literals. -/
theorem scan_laidOut {file source : String} {tokens : List Token}
    (h : scan file source = .ok tokens) {gap : Nat → String}
    (hgap : ∀ i, ∀ c ∈ (gap i).toList, c = ' ' ∨ c = '\t' ∨ c = '\r' ∨ c = '\n')
    (hne : ∀ i, 0 < i → i < (words tokens).length → gap i ≠ "") (other : String) :
    ∃ laid, scan other (laidOut gap (words tokens)) = .ok laid ∧
      laid.map face = tokens.map face := by
  obtain ⟨ts, place, rfl, hts, -⟩ := exists_of_scan h
  obtain ⟨hlexemes, hread⟩ := lexemes_of_scan h
  rw [words_concat fun t ht ↦ (hts t ht).2] at hne ⊢
  have hsame : lexemes (laidOut gap (ts.map lexeme)).toList = ts.map fun t ↦ t.lexeme.toList := by
    rw [lexemes_laidOut ?_ ?_ hne, List.map_map]
    · rfl
    · intro word hword
      obtain ⟨t, ht, rfl⟩ := List.mem_map.mp hword
      have hmem : t.lexeme.toList ∈ lexemes source.toList := hlexemes ▸ List.mem_map_of_mem ht
      exact lexemes_of_mem hmem
    · intro i c hc
      simpa [isLayout, or_assoc] using hgap i c hc
  rw [← hlexemes, ← hsame] at hread
  obtain ⟨us, end', hscan, hkeys⟩ := scan_of_read other hread
  obtain ⟨hothers, -⟩ := lexemes_of_scan hscan
  refine ⟨us ++ [.endAt end'], hscan, ?_⟩
  rw [List.map_append, List.map_append, map_face_eq hkeys (hothers.trans hsame)]
  rfl

/-- A branch without any blanks, and the same branch over many lines. -/
theorem scan_laidOut_branch :
    ∃ tokens laid, scan "p" "if(a1<=007)!x" = .ok tokens ∧
      scan "q" "if\n\t(\n\ta1\n\t<=\n\t007\n\t)\n\t!\n\tx\n\t" = .ok laid ∧
      laid.map face = tokens.map face := by
  have hscan : ∃ tokens, scan "p" "if(a1<=007)!x" = .ok tokens ∧
      words tokens = ["if", "(", "a1", "<=", "007", ")", "!", "x"] := ⟨_, rfl, rfl⟩
  obtain ⟨tokens, hscan, hwords⟩ := hscan
  let gap : Nat → String := fun i ↦ if i = 0 then "" else "\n\t"
  have hgap : ∀ i, ∀ c ∈ (gap i).toList, c = ' ' ∨ c = '\t' ∨ c = '\r' ∨ c = '\n' := by
    intro i c hc
    by_cases hi : i = 0 <;> simp_all [gap]
    tauto
  obtain ⟨laid, hlaid, hfaces⟩ := scan_laidOut hscan hgap (fun i hi _ ↦ by simp [gap, hi.ne']) "q"
  rw [hwords] at hlaid
  exact ⟨tokens, laid, hscan, hlaid, hfaces⟩

end ExprLang.Token
