import ExprLang.Proofs.Token.Marks

/-!
What a scan gives (`exists_of_scan`). The tokens stand one behind the other, so a place tells them
apart. The end mark is the last of them and the only one. A number token carries a number that is
not negative, a name token a name that can be written, and every other token nothing.
-/

set_option autoImplicit false

namespace ExprLang

/-- Stands on an earlier line, or on the same line further left. -/
def Position.Before (p q : Position) : Prop :=
  p.line < q.line ∨ p.line = q.line ∧ p.column < q.column

namespace Position.Before

theorem trans {p q r : Position} (hpq : p.Before q) (hqr : q.Before r) : p.Before r := by
  unfold Before at *
  omega

theorem ne {p q : Position} (h : p.Before q) : p ≠ q := by
  rintro rfl
  unfold Before at h
  omega

instance : IsTrans Position Position.Before := ⟨fun _ _ _ ↦ trans⟩

end Position.Before

namespace Token

/-! ### The order of tokens -/

theorem before_advance (place : Position) (c : Char) : place.Before (Scanner.advance place c) := by
  unfold Scanner.advance
  split_ifs
  · left
    exact Int.lt_succ place.line
  · right
    exact ⟨rfl, Int.lt_succ place.column⟩

/-- The places where drafts start, and the place where the text ends, come one behind the other.
Here `origin` is any place before them, which lets the induction put a finished draft in front. -/
theorem isChain_starts (text : List Char) (origin place : Position) (d : Option Draft)
    (horigin : origin.Before (d.elim place Draft.start))
    (hplace : ∀ draft ∈ d, draft.start.Before place) :
    (origin :: ((drafts place d text).map Draft.start ++ [placeAfter place text])).IsChain
      Position.Before := by
  induction text generalizing origin place d with
  | nil =>
    cases d with
    | none => simpa using horigin
    | some draft => simpa using ⟨horigin, hplace draft rfl⟩
  | cons c rest ih =>
    have hnext := before_advance place c
    -- Behind a place that the text has passed, the draft that `c` begins is in order.
    have hbegun : ∀ before : Position, before.Before place →
        (before :: ((drafts (Scanner.advance place c) (begun place c) rest).map Draft.start ++
          [placeAfter (Scanner.advance place c) rest])).IsChain Position.Before := by
      intro before hbefore
      unfold begun
      split_ifs
      · exact ih before _ none (hbefore.trans hnext) (by simp)
      · exact ih before _ (some ⟨place, c, []⟩) hbefore (by simpa using hnext)
    cases d with
    | none => exact hbegun origin horigin
    | some draft =>
      have hstart := hplace draft rfl
      by_cases hjoins : draft.joins c = true
      · rw [drafts_of_joins hjoins]
        refine ih origin _ (some (draft.push c)) horigin ?_
        rintro _ ⟨⟩
        exact hstart.trans hnext
      · rw [Bool.not_eq_true] at hjoins
        rw [drafts_of_not_joins hjoins, drafts_none_cons, List.map_cons, List.cons_append,
          List.isChain_cons_cons]
        exact ⟨horigin, hbegun draft.start hstart⟩

/-! ### The payload of tokens -/

/-- A number token carries a number that is not negative, a name token a name that can be written,
and every other token nothing. -/
structure Sound (t : Token) : Prop where
  int : t.kind = .int → ∃ n : Int64, t.literal = some (.int n) ∧ 0 ≤ n.toInt
  ident : t.kind = .ident → ∃ s, t.literal = some (.ident s) ∧ isName s = true
  bare : t.kind ≠ .int → t.kind ≠ .ident → t.literal = none

/-- What starts as a name goes on as one. -/
def Draft.Coherent (d : Draft) : Prop :=
  isNameStart d.first = true → ∀ c ∈ d.others, isNamePart c = true

theorem Draft.Coherent.push {d : Draft} (h : d.Coherent) {c : Char} (hc : d.joins c = true) :
    (d.push c).Coherent := by
  intro hname x hx
  rcases List.mem_cons.mp hx with rfl | hx
  · simpa [Draft.joins, show isNameStart d.first = true from hname] using hc
  · exact h hname x hx

theorem coherent_of_mem_drafts {text : List Char} {place : Position} {d : Option Draft}
    (h : ∀ draft ∈ d, draft.Coherent) : ∀ draft ∈ drafts place d text, draft.Coherent :=
  forall_mem_drafts (fun _ _ hd hc ↦ hd.push hc) (fun _ _ _ _ _ ↦ List.forall_mem_nil _) h

theorem zero_le_toInt_ofNat {n : Nat} (h : n < 0x8000000000000000) :
    0 ≤ (Int64.ofNat n).toInt := by
  rw [Int64.toInt_ofNat_of_lt h]
  exact Int.natCast_nonneg n

/-- A finished draft is a token that stands where the draft started and carries what it should. -/
theorem Draft.sound_of_finish {d : Draft} {t : Token} (hd : d.Coherent) (h : d.finish = .ok t) :
    t.Sound ∧ t.kind ≠ .eof ∧ t.position = d.start := by
  rw [Draft.finish_eq] at h
  cases hread : read d.characters with
  | error cause => simp [hread] at h
  | ok k =>
    obtain ⟨kind, literal⟩ := k
    simp only [hread, Except.ok.injEq] at h
    subst h
    refine ⟨?_, read_ne_eof hread, rfl⟩
    rcases read_cases hread with ⟨rfl, -, hn, rfl⟩ | ⟨rfl, rfl, hstart, hkeyword⟩ |
      ⟨-, hint, hident, rfl⟩
    · exact ⟨fun _ ↦ ⟨_, rfl, zero_le_toInt_ofNat hn⟩, nofun, fun hne ↦ absurd rfl hne⟩
    · refine ⟨nofun, fun _ ↦ ⟨_, rfl, ?_⟩, fun _ hne ↦ absurd rfl hne⟩
      have hothers : d.others.reverse.all isNamePart = true := by
        rw [List.all_reverse, List.all_eq_true]
        exact hd hstart
      have hfirst : isNameStart d.first = true := hstart
      rw [isName, String.toList_ofList]
      change (isNameStart d.first && d.others.reverse.all isNamePart &&
        (Kind.ofKeyword? (String.ofList d.characters)).isNone) = true
      rw [hfirst, hothers, hkeyword]
      rfl
    · exact ⟨fun hkind ↦ absurd hkind hint, fun hkind ↦ absurd hkind hident, fun _ _ ↦ rfl⟩

/-! ### The tokens of a source -/

/-- Finished drafts stand where they started. -/
theorem map_position_of_mapM_finish {ds : List Draft} {ts : List Token}
    (hds : ∀ d ∈ ds, d.Coherent) (h : ds.mapM Draft.finish = .ok ts) :
    ts.map position = ds.map Draft.start := by
  induction ds generalizing ts with
  | nil =>
    cases h
    rfl
  | cons d ds ih =>
    obtain ⟨hd, hrest⟩ := List.forall_mem_cons.mp hds
    obtain ⟨t, others, hfirst, hothers, rfl⟩ := mapM_cons_eq_ok h
    rw [List.map_cons, List.map_cons, ih hrest hothers, (Draft.sound_of_finish hd hfirst).2.2]

/-- The end mark is the last token and the only one, and the others carry what they should. -/
theorem exists_of_scan {file source : String} {tokens : List Token}
    (h : scan file source = .ok tokens) :
    ∃ ts place, tokens = ts ++ [.endAt place] ∧ (∀ t ∈ ts, t.Sound ∧ t.kind ≠ .eof) ∧
      tokens.Pairwise fun t u ↦ t.position.Before u.position := by
  rw [scan_eq] at h
  cases hts : (drafts ⟨file, 1, 1⟩ none source.toList).mapM Draft.finish with
  | error fault => simp [hts, Except.map] at h
  | ok ts =>
    have hcoherent : ∀ d ∈ drafts ⟨file, 1, 1⟩ none source.toList, d.Coherent :=
      coherent_of_mem_drafts (by simp)
    have hchain := isChain_starts source.toList ⟨file, 0, 0⟩ ⟨file, 1, 1⟩ none
      (.inl Int.zero_lt_one) (by simp)
    simp only [hts, Except.map, Except.ok.injEq] at h
    subst h
    refine ⟨ts, _, rfl, ?_, ?_⟩
    · intro t ht
      obtain ⟨d, hd, hfinish⟩ := exists_of_mem_mapM hts ht
      obtain ⟨hsound, hne, -⟩ := Draft.sound_of_finish (hcoherent d hd) hfinish
      exact ⟨hsound, hne⟩
    · rw [List.isChain_iff_pairwise, List.pairwise_cons,
        ← map_position_of_mapM_finish hcoherent hts] at hchain
      rw [← List.pairwise_map, List.map_append]
      exact hchain.2

end Token

end ExprLang
