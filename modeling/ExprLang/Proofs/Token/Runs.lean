import ExprLang.Proofs.Token.Places

/-!
How far tokens go. A name or a run of digits goes on as long as parts of names or digits follow, and
a mark takes in one more character at most (`joins_cases`). So the character that a text ends in
tells whether a digit would belong to its last token (`joins_isDigit_iff_getLast?`). A text can be
cut before any of its tokens (`exists_cut`), and the first token behind a cut is found from the
characters there (`exists_drafts_cons`).
-/

set_option autoImplicit false

namespace ExprLang.Token

/-! ### What joins a draft -/

/-- A name or a run of digits is joined by parts of names. A mark is joined by one more character at
most: some marks by an equals sign, and two of them by their double. -/
theorem joins_cases {d : Draft} {c : Char} (h : d.joins c = true) :
    (isNamePart d.first = true ∧ isNamePart c = true) ∨
    (isNamePart d.first = false ∧ d.others = [] ∧
      (c = '=' ∧ (d.first = '=' ∨ d.first = '!' ∨ d.first = '<' ∨ d.first = '>') ∨
        c = d.first ∧ (c = '&' ∨ c = '|'))) := by
  unfold Draft.joins at h
  unfold isNamePart at h ⊢
  split_ifs at h with hname hdigit
  · exact .inl ⟨by simp [hname], h⟩
  · exact .inl ⟨by simp [hdigit], by simp [h]⟩
  · rw [Bool.and_eq_true, List.isEmpty_iff] at h
    refine .inr ⟨by simp [hname, hdigit], h.1, ?_⟩
    have hmark := h.2
    split at hmark <;> simp_all

theorem not_isNamePart_of_joins_mark {c : Char} (h : c = '=' ∨ c = '&' ∨ c = '|') :
    isNamePart c = false := by
  rcases h with rfl | rfl | rfl <;> decide

/-- A digit joins names and runs of digits, and nothing else. -/
theorem joins_isDigit_iff {d : Draft} {c : Char} (h : isDigit c = true) :
    d.joins c = true ↔ isNamePart d.first = true := by
  have hpart : isNamePart c = true := by simp [isNamePart, h]
  constructor
  · intro hjoins
    rcases joins_cases hjoins with ⟨hfirst, -⟩ | ⟨-, -, ⟨rfl, -⟩ | ⟨-, rfl | rfl⟩⟩
    · exact hfirst
    all_goals contradiction
  · intro hfirst
    rw [isNamePart, Bool.or_eq_true] at hfirst
    by_cases hname : isNameStart d.first = true
    · simp [Draft.joins, hname, hpart]
    · simp [Draft.joins, hname, hfirst.resolve_left hname, h]

/-- A mark that has to be doubled joins itself, and nothing else. -/
theorem characters_of_joins_pair {c : Char} (hc : c = '&' ∨ c = '|') {d : Draft}
    (h : d.joins c = true) : d.characters = [c] := by
  rcases joins_cases h with ⟨-, hpart⟩ | ⟨-, hothers, ⟨rfl, -⟩ | ⟨rfl, -⟩⟩
  · rw [not_isNamePart_of_joins_mark (.inr hc)] at hpart
    contradiction
  · rcases hc with hc | hc <;> contradiction
  · rw [Draft.characters, hothers]
    rfl

/-- The characters of a draft are all parts of names, or none of them is. -/
def Draft.Uniform (d : Draft) : Prop := ∀ c ∈ d.characters, isNamePart c = isNamePart d.first

theorem Draft.Uniform.push {d : Draft} (h : d.Uniform) {c : Char} (hc : d.joins c = true) :
    (d.push c).Uniform := by
  intro x hx
  rw [Draft.characters_push, List.mem_append, List.mem_singleton] at hx
  change isNamePart x = isNamePart d.first
  rcases hx with hx | rfl
  · exact h x hx
  · rcases joins_cases hc with ⟨hfirst, hpart⟩ | ⟨hfirst, -, hmark⟩
    · rw [hfirst, hpart]
    · rw [hfirst, not_isNamePart_of_joins_mark (by tauto)]

theorem uniform_of_mem_drafts {place : Position} {text : List Char} {d : Draft}
    (h : d ∈ drafts place none text) : d.Uniform := by
  refine forall_mem_drafts (fun _ _ hd hc ↦ hd.push hc) (fun c _ _ place x hx ↦ ?_) (by simp) d h
  rw [List.mem_singleton.mp hx]

/-! ### The draft in progress -/

/-- Reading one more character. -/
theorem inProgress_concat (place : Position) (d : Option Draft) (text : List Char) (c : Char) :
    inProgress place d (text ++ [c]) =
      match inProgress place d text with
      | none => begun (placeAfter place text) c
      | some e => if e.joins c then some (e.push c) else begun (placeAfter place text) c := by
  induction text generalizing place d with
  | nil => cases d <;> rfl
  | cons x rest ih =>
    cases d with
    | none => exact ih _ _
    | some d =>
      by_cases hjoins : d.joins x = true
      · rw [List.cons_append, inProgress_of_joins hjoins, inProgress_of_joins hjoins]
        exact ih _ _
      · rw [Bool.not_eq_true] at hjoins
        rw [List.cons_append, inProgress_of_not_joins hjoins, inProgress_of_not_joins hjoins]
        exact ih _ _

theorem getLast?_of_begun {place : Position} {c : Char} {e : Draft} (h : e ∈ begun place c) :
    e.characters.getLast? = some c := by
  unfold begun at h
  split_ifs at h
  · contradiction
  · cases h
    rfl

/-- The draft in progress ends in the last character of the text. -/
theorem getLast?_of_inProgress {place : Position} {text : List Char} {c : Char} {e : Draft}
    (h : e ∈ inProgress place none (text ++ [c])) : e.characters.getLast? = some c := by
  rw [inProgress_concat] at h
  cases hprogress : inProgress place none text with
  | none =>
    rw [hprogress] at h
    exact getLast?_of_begun h
  | some d =>
    simp only [hprogress] at h
    split_ifs at h
    · cases h
      rw [Draft.characters_push, List.getLast?_concat]
    · exact getLast?_of_begun h

/-- Behind a character that is no layout, a draft is in progress. -/
theorem exists_inProgress (place : Position) (text : List Char) {c : Char}
    (h : isLayout c = false) : ∃ e, inProgress place none (text ++ [c]) = some e := by
  have hbegun : ∀ place, begun place c = some ⟨place, c, []⟩ := fun place ↦ if_neg (by simp [h])
  rw [inProgress_concat]
  cases inProgress place none text with
  | none => exact ⟨_, hbegun _⟩
  | some d =>
    by_cases hjoins : d.joins c = true
    · exact ⟨_, if_pos hjoins⟩
    · exact ⟨_, (if_neg hjoins).trans (hbegun _)⟩

theorem mem_drafts_of_inProgress {place : Position} {d : Option Draft} {text : List Char}
    {e : Draft} (h : e ∈ inProgress place d text) : e ∈ drafts place d text := by
  induction text generalizing place d with
  | nil => exact Option.mem_toList.mpr h
  | cons c rest ih =>
    cases d with
    | none => exact ih h
    | some d =>
      by_cases hjoins : d.joins c = true
      · rw [inProgress_of_joins hjoins] at h
        rw [drafts_of_joins hjoins]
        exact ih h
      · rw [Bool.not_eq_true] at hjoins
        rw [inProgress_of_not_joins hjoins] at h
        rw [drafts_of_not_joins hjoins]
        exact List.mem_cons_of_mem d (ih h)

/-- The character that a draft in progress ends in tells whether a digit joins it. -/
theorem joins_isDigit_iff_getLast? {place : Position} {before : List Char} {b c : Char} {d : Draft}
    (hd : d ∈ inProgress place none (before ++ [b])) (hc : isDigit c = true) :
    d.joins c = true ↔ isNamePart b = true := by
  have hmem : b ∈ d.characters := List.mem_of_getLast? (getLast?_of_inProgress hd)
  rw [joins_isDigit_iff hc, uniform_of_mem_drafts (mem_drafts_of_inProgress hd) b hmem]

/-! ### Cutting a text before a token -/

/-- The text can be cut before any of its tokens: those before it are the drafts of what stands
there, whose draft in progress the first character of the token does not join. -/
theorem exists_cut {place : Position} {d : Option Draft} {text : List Char} {ds es : List Draft}
    {e : Draft} (h : drafts place d text = ds ++ e :: es) (hd : d = none ∨ ds ≠ []) :
    ∃ before c after, text = before ++ c :: after ∧ isLayout c = false ∧
      drafts place d before = ds ∧ ∀ draft ∈ inProgress place d before, draft.joins c = false := by
  induction text generalizing place d ds with
  | nil =>
    rcases hd with rfl | hds
    · simp at h
    · have hlength := congrArg List.length h
      have hpos := List.length_pos_iff.mpr hds
      cases d <;> simp at hlength
      omega
  | cons c rest ih =>
    -- Where no draft is in progress, the token starts here or further on.
    have hnone : ∀ {ds : List Draft}, drafts place none (c :: rest) = ds ++ e :: es →
        ∃ before c' after, c :: rest = before ++ c' :: after ∧ isLayout c' = false ∧
          drafts place none before = ds ∧
          ∀ draft ∈ inProgress place none before, draft.joins c' = false := by
      intro ds h
      by_cases hhere : isLayout c = false ∧ ds = []
      · exact ⟨[], c, rest, rfl, hhere.1, hhere.2.symm, by simp⟩
      · have hbegun : begun place c = none ∨ ds ≠ [] := by
          by_cases hlayout : isLayout c = true
          · exact .inl (if_pos hlayout)
          · exact .inr fun hds ↦ hhere ⟨Bool.eq_false_iff.mpr hlayout, hds⟩
        obtain ⟨before, c', after, rfl, hc', hdrafts, hjoins⟩ := ih h hbegun
        exact ⟨c :: before, c', after, rfl, hc', hdrafts, hjoins⟩
    cases d with
    | none => exact hnone h
    | some draft =>
      have hds : ds ≠ [] := hd.resolve_left nofun
      by_cases hjoins : draft.joins c = true
      · rw [drafts_of_joins hjoins] at h
        obtain ⟨before, c', after, rfl, hc', hdrafts, hcut⟩ := ih h (.inr hds)
        refine ⟨c :: before, c', after, rfl, hc', ?_, ?_⟩
        · rwa [drafts_of_joins hjoins]
        · rwa [inProgress_of_joins hjoins]
      · rw [Bool.not_eq_true] at hjoins
        rw [drafts_of_not_joins hjoins] at h
        obtain ⟨first, others, rfl⟩ := List.exists_cons_of_ne_nil hds
        obtain ⟨rfl, hothers⟩ := List.cons.inj h
        obtain ⟨before, c', after, hsplit, hc', hdrafts, hcut⟩ := hnone hothers
        refine ⟨before, c', after, hsplit, hc', ?_, ?_⟩
        · cases before with
          | nil => exact congrArg (draft :: ·) hdrafts
          | cons x before =>
            obtain ⟨rfl, rfl⟩ := List.cons.inj hsplit
            rw [drafts_of_not_joins hjoins, hdrafts]
        · cases before with
          | nil =>
            obtain ⟨rfl, rfl⟩ := List.cons.inj hsplit
            rintro _ ⟨⟩
            exact hjoins
          | cons x before =>
            obtain ⟨rfl, rfl⟩ := List.cons.inj hsplit
            rwa [inProgress_of_not_joins hjoins]

/-! ### How far a token goes -/

/-- The characters that join a draft one after the other. -/
def Draft.run (d : Draft) : List Char → List Char
  | [] => []
  | c :: rest => if d.joins c then c :: (d.push c).run rest else []

theorem exists_drafts_some (place : Position) (d : Draft) (text : List Char) :
    ∃ others, drafts place (some d) text =
      ⟨d.start, d.first, (d.run text).reverse ++ d.others⟩ :: others := by
  induction text generalizing place d with
  | nil => exact ⟨[], rfl⟩
  | cons c rest ih =>
    by_cases hjoins : d.joins c = true
    · obtain ⟨others, hothers⟩ := ih (Scanner.advance place c) (d.push c)
      refine ⟨others, ?_⟩
      rw [drafts_of_joins hjoins, hothers, Draft.run, if_pos hjoins]
      simp [Draft.push]
    · rw [Bool.not_eq_true] at hjoins
      refine ⟨drafts place none (c :: rest), ?_⟩
      rw [drafts_of_not_joins hjoins, Draft.run, if_neg (by simp [hjoins])]
      rfl

/-- The lexeme that starts with `c`, with `after` behind it. -/
def lexemeFrom (c : Char) (after : List Char) : List Char :=
  c :: Draft.run ⟨.zero, c, []⟩ after

theorem Draft.run_congr {d e : Draft} (hfirst : d.first = e.first) (hothers : d.others = e.others)
    (text : List Char) : d.run text = e.run text := by
  induction text generalizing d e with
  | nil => rfl
  | cons c rest ih =>
    have hjoins : d.joins c = e.joins c := by simp only [Draft.joins, hfirst, hothers]
    have hrest := ih (d := d.push c) (e := e.push c) hfirst (congrArg (c :: ·) hothers)
    rw [Draft.run, Draft.run, hjoins, hrest]

/-- The first draft of a text that layout does not start. -/
theorem exists_drafts_cons (place : Position) {c : Char} (h : isLayout c = false)
    (after : List Char) : ∃ d others, drafts place none (c :: after) = d :: others ∧
      d.start = place ∧ d.first = c ∧ d.characters = lexemeFrom c after := by
  have hbegun : begun place c = some ⟨place, c, []⟩ := if_neg (by simp [h])
  obtain ⟨others, hothers⟩ := exists_drafts_some (Scanner.advance place c) ⟨place, c, []⟩ after
  refine ⟨⟨place, c, (Draft.run ⟨place, c, []⟩ after).reverse⟩, others, ?_, rfl, rfl, ?_⟩
  · rw [drafts_none_cons, hbegun, hothers, List.append_nil]
  · rw [Draft.characters, List.reverse_reverse, lexemeFrom]
    exact congrArg (c :: ·)
      (Draft.run_congr (d := ⟨place, c, []⟩) (e := ⟨.zero, c, []⟩) rfl rfl after)

theorem run_of_isDigit {d : Draft} (h : isDigit d.first = true) (text : List Char) :
    d.run text = text.takeWhile isDigit := by
  induction text generalizing d with
  | nil => rfl
  | cons c rest ih =>
    have hjoins : d.joins c = isDigit c := by simp [Draft.joins, isNameStart_of_isDigit h, h]
    rw [Draft.run, hjoins, List.takeWhile_cons, ih (d := d.push c) h]

theorem lexemeFrom_of_isDigit {c : Char} (h : isDigit c = true) (after : List Char) :
    lexemeFrom c after = c :: after.takeWhile isDigit := by
  rw [lexemeFrom, run_of_isDigit h]

/-- A mark takes in at most one more character. -/
theorem lexemeFrom_of_mark {c : Char} (hname : isNameStart c = false) (hdigit : isDigit c = false)
    (after : List Char) :
    lexemeFrom c after = c :: after.head?.toList.filter (Draft.joins ⟨.zero, c, []⟩) := by
  cases after with
  | nil => rfl
  | cons x rest =>
    have hlast : ∀ y, Draft.joins ⟨.zero, c, [x]⟩ y = false := by
      intro y
      simp [Draft.joins, hname, hdigit]
    have hstop : Draft.run ⟨.zero, c, [x]⟩ rest = [] := by
      cases rest with
      | nil => rfl
      | cons y rest => exact if_neg (by simp [hlast y])
    by_cases hjoins : Draft.joins ⟨.zero, c, []⟩ x = true
    · simpa [lexemeFrom, Draft.run, Draft.push, hjoins] using hstop
    · simp [lexemeFrom, Draft.run, hjoins]

end ExprLang.Token
