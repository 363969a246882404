import ExprLang.Proofs.Yaml.Reader

/-!
Documents of lines: a mapping with scalars, each on a line with its key, and one entry at its end
that is such a mapping itself. They are read as these entries (`exists_read`).
-/

set_option autoImplicit false

namespace ExprLang.Yaml

/-! ### Lines -/

/-- A line of a mapping: a key, and what is written behind its colon for a scalar. -/
structure Line where
  key : String
  written : List Char
  text : String
  isPlain : Bool

theorem Queue.Starts.of_isKey {key rest : List Char} (hkey : IsKey key) : Starts (key ++ rest) := by
  obtain ⟨first, more, rfl⟩ := List.exists_cons_of_ne_nil hkey.1
  obtain ⟨hprintable, hmarks, hreserved⟩ := hkey.letter List.mem_cons_self
  refine ⟨solid_cons.mpr ⟨hmarks ' ' (by decide), hprintable.ne_lineEnd⟩, ?_⟩
  rintro (h : some first = some '#')
  rw [Option.some.inj h] at hreserved
  contradiction

namespace Line

/-- In a mapping at this column, the line is read back. -/
def Fits (column : Nat) (l : Line) : Prop :=
  IsKey l.key.toList ∧ Writes column l.written l.text l.isPlain

def entry (l : Line) : Read.Entry := .ofScalar l.key l.text l.isPlain

/-- How the first of these lines is indented, and its text with all that follows. Behind them stands
`tail`, in column `next`. -/
def layout (column next : Nat) (tail : List Char) : List Line → Nat × List Char
  | [] => (next, tail)
  | l :: ls =>
    let (indent, later) := layout column next tail ls
    (column, l.key.toList ++ ':' :: ' ' ::
      (l.written ++ '\n' :: (List.replicate indent ' ' ++ later)))

variable {column next : Nat} {tail : List Char}

/-- The lines are written one by one. -/
theorem spaces_layout (ls : List Line) :
    List.replicate (layout column next tail ls).1 ' ' ++ (layout column next tail ls).2 =
      ls.flatMap (fun l ↦ Writer.entry column l.key (l.written ++ ['\n'])) ++
        (List.replicate next ' ' ++ tail) := by
  induction ls with
  | nil => rfl
  | cons l ls ih => simp [layout, ih, Writer.entry, Writer.spaces]

theorem length_layout (ls : List Line) :
    ls.length + tail.length ≤ (layout column next tail ls).2.length := by
  induction ls with
  | nil => simp [layout]
  | cons l ls ih =>
    simp only [layout, List.length_append, List.length_cons]
    omega

theorem starts_layout {ls : List Line} (hls : ∀ l ∈ ls, l.Fits column)
    (htail : Queue.Starts tail) : Queue.Starts (layout column next tail ls).2 := by
  cases ls with
  | nil => exact htail
  | cons l ls => exact .of_isKey (hls l List.mem_cons_self).1

theorem common_layout {ls : List Line} (hls : ∀ l ∈ ls, l.Fits column)
    (htail : ∀ c ∈ tail, IsCommon c) : ∀ c ∈ (layout column next tail ls).2, IsCommon c := by
  induction ls with
  | nil => exact htail
  | cons l ls ih =>
    obtain ⟨⟨hkey, hwrites⟩, hls⟩ := List.forall_mem_cons.mp hls
    have hname : ∀ c ∈ l.key.toList, IsCommon c := fun c hc ↦ .inr (hkey.letter hc).1
    simp only [layout, List.forall_mem_append, List.forall_mem_cons]
    exact ⟨hname, .inr (by decide), .inr (by decide), hwrites.common, .inl rfl, common_spaces _,
      ih hls⟩

theorem layout_le (hnext : next ≤ column) (ls : List Line) :
    (layout column next tail ls).1 ≤ column := by
  cases ls with
  | nil => exact hnext
  | cons l ls => exact Nat.le_refl column

variable {q : Queue} {indent : Int} {outer : List Int} {lexemes : List Lexeme}

theorem gives_line {l : Line} {ls : List Line} (hls : ∀ l' ∈ l :: ls, l'.Fits column)
    (hnext : next ≤ column) (htail : Queue.Starts tail) (hcolumn : indent ≤ column)
    (hq : q.Stands indent outer column (layout column next tail (l :: ls)).2)
    (hrest : ∀ q' : Queue, q'.Stands column (Queue.blocksAt column indent outer)
      (layout column next tail ls).1 (layout column next tail ls).2 → Queue.Gives lexemes q') :
    Queue.Gives (Queue.keyLexemes column indent l.key ++ .scalar l.text l.isPlain :: lexemes)
      q := by
  obtain ⟨⟨hkey, hwrites⟩, hls⟩ := List.forall_mem_cons.mp hls
  have hgives := hq.gives_key hkey rfl hcolumn fun q' hq' ↦
    hq'.gives_value hwrites (layout_le hnext ls) (starts_layout hls htail) hrest
  rw [String.ofList_toList] at hgives
  exact hgives

/-- Entries of a mapping are handed out in their order. -/
theorem gives_lines {ls : List Line} (hls : ∀ l ∈ ls, l.Fits column) (hnext : next ≤ column)
    (htail : Queue.Starts tail)
    (hq : q.Stands column outer (layout column next tail ls).1 (layout column next tail ls).2)
    (hrest : ∀ q' : Queue, q'.Stands column outer next tail → Queue.Gives lexemes q') :
    Queue.Gives (ls.flatMap (·.entry.spelled) ++ lexemes) q := by
  induction ls generalizing q with
  | nil => exact hrest q hq
  | cons l ls ih =>
    have hlater := (List.forall_mem_cons.mp hls).2
    have hsame : Queue.blocksAt column column outer = outer := if_neg (Int.lt_irrefl _)
    have hgives := gives_line hls hnext htail (Int.le_refl _) hq fun q' hq' ↦
      ih hlater (hsame ▸ hq')
    have hlexemes : Queue.keyLexemes column column l.key = [.key, .scalar l.key true, .value] := by
      simp [Queue.keyLexemes]
    rw [hlexemes] at hgives
    exact hgives

/-- A mapping starts with the first of its entries. -/
theorem gives_block {l : Line} {ls : List Line} (hls : ∀ l' ∈ l :: ls, l'.Fits column)
    (hnext : next ≤ column) (htail : Queue.Starts tail) (hindent : indent < column)
    (hq : q.Stands indent outer column (layout column next tail (l :: ls)).2)
    (hrest : ∀ q' : Queue, q'.Stands column (indent :: outer) next tail →
      Queue.Gives lexemes q') :
    Queue.Gives (.blockMappingStart :: ((l :: ls).flatMap (·.entry.spelled) ++ lexemes)) q := by
  have hlater := (List.forall_mem_cons.mp hls).2
  have hopened : Queue.blocksAt column indent outer = indent :: outer := if_pos hindent
  have hgives := gives_line hls hnext htail (Int.le_of_lt hindent) hq fun q' hq' ↦
    gives_lines hlater hnext htail (hopened ▸ hq') hrest
  have hlexemes : Queue.keyLexemes column indent l.key =
      [.blockMappingStart, .key, .scalar l.key true, .value] := by
    simp [Queue.keyLexemes, hindent]
  rw [hlexemes] at hgives
  exact hgives

end Line

/-! ### Documents -/

section Documents

variable {name : String} {l m : Line} {ls ms : List Line}

/-- A mapping with entries on lines of their own, and behind them one entry that is a mapping, two
columns further right. -/
def layoutNested (name : String) (ls ms : List Line) : List Char :=
  (Line.layout 0 0 (name.toList ++ ':' :: '\n' :: (List.replicate 2 ' ' ++
    (Line.layout 2 0 [] ms).2)) ls).2

def nestedEntries (name : String) (ls ms : List Line) : List Read.Entry :=
  ls.map Line.entry ++ [.ofMapping name (ms.map Line.entry)]

/-- The lines are written one by one, and the last entry has a line for its key alone. -/
theorem layoutNested_eq (name : String) (ls : List Line) (m : Line) (ms : List Line) :
    layoutNested name ls (m :: ms) =
      ls.flatMap (fun l ↦ Writer.entry 0 l.key (l.written ++ ['\n'])) ++
        (name.toList ++ ':' :: '\n' ::
          (m :: ms).flatMap fun l ↦ Writer.entry 2 l.key (l.written ++ ['\n'])) := by
  have hnested : List.replicate 2 ' ' ++ (Line.layout 2 0 [] (m :: ms)).2 =
      (m :: ms).flatMap (fun l ↦ Writer.entry 2 l.key (l.written ++ ['\n'])) ++ [] :=
    Line.spaces_layout (m :: ms)
  rw [List.append_nil] at hnested
  rw [layoutNested, hnested]
  generalize name.toList ++ _ = tail
  have hzero : (Line.layout 0 0 tail ls).1 = 0 := Nat.le_zero.mp (Line.layout_le (Nat.le_refl 0) ls)
  have hlines : List.replicate (Line.layout 0 0 tail ls).1 ' ' ++ (Line.layout 0 0 tail ls).2 = _ :=
    Line.spaces_layout ls
  rw [hzero] at hlines
  exact hlines

theorem length_layoutNested (name : String) (ls ms : List Line) :
    ls.length + ms.length ≤ (layoutNested name ls ms).length := by
  have hnested : ms.length + [].length ≤ (Line.layout 2 0 [] ms).2.length := Line.length_layout ms
  refine Nat.le_trans ?_ (Line.length_layout ls)
  simp only [List.length_append, List.length_cons, List.length_replicate]
  omega

theorem common_layoutNested (hname : IsKey name.toList) (hls : ∀ l ∈ ls, l.Fits 0)
    (hms : ∀ m ∈ ms, m.Fits 2) : ∀ c ∈ layoutNested name ls ms, IsCommon c := by
  have hnested : ∀ c ∈ (Line.layout 2 0 [] ms).2, IsCommon c := Line.common_layout hms nofun
  refine Line.common_layout hls ?_
  simp only [List.forall_mem_append, List.forall_mem_cons]
  exact ⟨fun c hc ↦ .inr (hname.letter hc).1, .inr (by decide), .inl rfl, common_spaces 2, hnested⟩

theorem gives_layoutNested (hname : IsKey name.toList) (hls : ∀ l' ∈ l :: ls, l'.Fits 0)
    (hms : ∀ m' ∈ m :: ms, m'.Fits 2) :
    Queue.Gives (.textStart :: .blockMappingStart ::
        ((nestedEntries name (l :: ls) (m :: ms)).flatMap Read.Entry.spelled ++
          [.blockEnd, .textEnd]))
      (.ofBytes (Text.Utf8.encode (String.ofList (layoutNested name (l :: ls) (m :: ms))))) := by
  have hend : Queue.Starts [] := ⟨solid_nil, nofun⟩
  have hnested : Queue.Starts (Line.layout 2 0 [] (m :: ms)).2 := Line.starts_layout hms hend
  have hkey : Queue.keyLexemes 0 (0 : Nat) name = [.key, .scalar name true, .value] := rfl
  have hcommon := common_layoutNested hname hls hms
  have hgives := Queue.gives_start hcommon (Line.starts_layout hls (.of_isKey hname))
    fun q hq ↦ Line.gives_block hls (Nat.le_refl 0) (.of_isKey hname) (by decide) hq fun q hq ↦
      hq.gives_key hname rfl (Int.le_refl 0) fun q hq ↦
        Line.gives_block hms (Nat.zero_le 2) hend (by decide) (hq.stands hnested) fun q hq ↦
          hq.gives_end (by decide)
  have hlexemes : (nestedEntries name (l :: ls) (m :: ms)).flatMap Read.Entry.spelled ++
      [.blockEnd, .textEnd] = (l :: ls).flatMap (·.entry.spelled) ++
        ([.key, .scalar name true, .value] ++ .blockMappingStart ::
          ((m :: ms).flatMap (·.entry.spelled) ++ [.blockEnd, .blockEnd, .textEnd])) := by
    simp [nestedEntries, Read.Entry.spelled, Read.Entry.ofMapping, List.flatMap_map]
  rw [String.ofList_toList, hkey, ← hlexemes] at hgives
  exact hgives

/-- A document of lines, the last entry of which is a mapping, is read as those entries. -/
theorem exists_read (hname : IsKey name.toList) (hls : ∀ l' ∈ l :: ls, l'.Fits 0)
    (hms : ∀ m' ∈ m :: ms, m'.Fits 2) :
    ∃ pairs line, List.Forall₂ Read.Entry.Matches (nestedEntries name (l :: ls) (m :: ms)) pairs ∧
      read (Text.Utf8.encode (String.ofList (layoutNested name (l :: ls) (m :: ms)))) =
        some (some ⟨.mapping pairs line, []⟩) := by
  have hgives := gives_layoutNested hname hls hms
  have hcommon := common_layoutNested hname hls hms
  have hsize : ls.length + ms.length ≤ (Queue.ofBytes (Text.Utf8.encode
      (String.ofList (layoutNested name (l :: ls) (m :: ms))))).cursor.size := by
    have hlength := length_layoutNested name (l :: ls) (m :: ms)
    simp only [List.length_cons] at hlength
    exact Nat.le_trans (by omega) (Cursor.at_ofBytes hcommon).fits
  unfold read
  generalize Queue.ofBytes (Text.Utf8.encode (String.ofList
    (layoutNested name (l :: ls) (m :: ms)))) = q at hgives hsize ⊢
  obtain ⟨fuel, hfuel⟩ : ∃ fuel, 8 * (q.cursor.size + 8) = fuel + 1 :=
    Nat.exists_eq_succ_of_ne_zero (by omega)
  have hlines : ∀ ls : List Line, ∀ e ∈ ls.map Line.entry, ∀ more, 2 ≤ more → e.Reads more := by
    intro ls e he more hmore
    obtain ⟨l, -, rfl⟩ := List.mem_map.mp he
    exact Read.Entry.reads_ofScalar _ _ _ hmore
  have hreads : ∀ e ∈ nestedEntries name (l :: ls) (m :: ms), ∀ more, ms.length + 9 ≤ more →
      e.Reads more := by
    intro e he more hmore
    rcases List.mem_append.mp he with hline | hnested
    · exact hlines (l :: ls) e hline more (by omega)
    · rw [List.eq_of_mem_singleton hnested]
      refine Read.Entry.reads_ofMapping name (hlines (m :: ms)) ?_
      simp
      omega
  have hroom : ms.length + 9 + (nestedEntries name (l :: ls) (m :: ms)).length + 6 ≤ fuel + 1 := by
    simp [nestedEntries]
    omega
  obtain ⟨root, r, hroot, ⟨n, ⟨pairs, hpairs, line, rfl⟩, rfl⟩, -, hanchors⟩ :=
    Read.gets_root (Read.gets_mapping false hreads hroom [.textEnd]) trivial ⟨q, [], []⟩ hgives
  refine ⟨pairs, line, hpairs, ?_⟩
  show Option.map _ (Read.root (8 * (q.cursor.size + 8)) _) = _
  rw [hfuel, hroot]
  show some (some (Document.mk (.mapping pairs line) r.anchors)) = _
  rw [hanchors]

end Documents

end ExprLang.Yaml
