import ExprLang.Proofs.Token.Lexemes

/-!
Tokens before they are written. A mark is a number, a name or a sign, and has one way of being
written (`Mark.lexeme`) and one meaning (`Mark.meaning`). Well-formed marks can be written in a row,
with separators between those that would run together, and are read back one by one
(`lexemes_lexeme`, `read_lexeme`); a blank after each of them is always enough (`lexemes_spaced`).
-/

set_option autoImplicit false

namespace ExprLang.Token

/-- A letter or an underscore, then letters, digits and underscores, and no reserved word. -/
def isName (s : String) : Bool :=
  match s.toList with
  | [] => false
  | c :: rest => isNameStart c && rest.all isNamePart && (Kind.ofKeyword? s).isNone

/-- How a reserved word or a mark is written. A minus may also be written `!`. -/
def Kind.spelling : Kind → List Char
  | .if => ['i', 'f']
  | .else => ['e', 'l', 's', 'e']
  | .while => ['w', 'h', 'i', 'l', 'e']
  | .func => ['f', 'u', 'n', 'c']
  | .plus => ['+']
  | .minus => ['-']
  | .multiply => ['*']
  | .divide => ['/']
  | .equal => ['=', '=']
  | .notEqual => ['!', '=']
  | .less => ['<']
  | .lessEqual => ['<', '=']
  | .greater => ['>']
  | .greaterEqual => ['>', '=']
  | .and => ['&', '&']
  | .or => ['|', '|']
  | .assign => ['=']
  | .lparen => ['(']
  | .rparen => [')']
  | .lbrace => ['{']
  | .rbrace => ['}']
  | .lbracket => ['[']
  | .rbracket => [']']
  | .semicolon => [';']
  | .comma => [',']
  | .eof | .int | .ident | .unknown _ => []

inductive Mark
  | number (n : Nat)
  | name (s : String)
  | sign (k : Kind)

namespace Mark

def lexeme : Mark → List Char
  | number n => Nat.toDigits 10 n
  | name s => s.toList
  | sign k => k.spelling

/-- What a mark means once it is written and read. -/
def meaning : Mark → Except LexicalCause (Kind × Option Literal)
  | number n =>
    if n < 0x8000000000000000 then .ok (.int, some (.int (Int64.ofNat n)))
    else .error (.tooLarge (String.ofList (Nat.toDigits 10 n)))
  | name s => .ok (.ident, some (.ident s))
  | sign k => .ok (k, none)

/-- A token of a mark that can be read, which stands nowhere. -/
def token : Mark → Token
  | number n => ⟨.int, "", some (.int (Int64.ofNat n)), .zero⟩
  | name s => ⟨.ident, "", some (.ident s), .zero⟩
  | sign k => ⟨k, "", none, .zero⟩

/-- A name is a name, and a sign has a spelling. -/
def isWellFormed : Mark → Bool
  | number _ => true
  | name s => isName s
  | sign k => !k.spelling.isEmpty

theorem isName_cases {s : String} (h : isName s = true) :
    ∃ c rest, s.toList = c :: rest ∧ isNameStart c = true ∧ (∀ x ∈ rest, isNamePart x = true) ∧
      Kind.ofKeyword? s = none := by
  unfold isName at h
  split at h
  · contradiction
  · rename_i c rest hs
    simp only [Bool.and_eq_true, List.all_eq_true, Option.isNone_iff_eq_none] at h
    exact ⟨c, rest, hs, h.1.1, h.1.2, h.2⟩

/-- A mark is written as one lexeme. -/
theorem lexemes_lexeme {m : Mark} (h : m.isWellFormed = true) : lexemes m.lexeme = [m.lexeme] := by
  cases m with
  | number n => exact lexemes_toDigits n
  | name s =>
    obtain ⟨c, rest, hs, hc, hrest, -⟩ := isName_cases h
    rw [lexeme, hs]
    exact lexemes_name hc hrest
  | sign k => cases k <;> first | rfl | contradiction

/-- A mark that was written is read as what it means. -/
theorem read_lexeme {m : Mark} (h : m.isWellFormed = true) : read m.lexeme = m.meaning := by
  cases m with
  | number n => exact read_toDigits n
  | name s =>
    obtain ⟨c, rest, hs, hc, -, hkeyword⟩ := isName_cases h
    have hself : String.ofList (c :: rest) = s := by rw [← hs, String.ofList_toList]
    rw [lexeme, hs, read, Draft.classify, List.headD_cons]
    simp only [hc, hself, hkeyword, if_true, meaning]
  | sign k => cases k <;> first | rfl | contradiction

/-- A mark that can be written and read back: a number is in the range of integers. -/
def Legible (m : Mark) : Prop :=
  m.isWellFormed = true ∧ ∀ n, m = number n → n < 0x8000000000000000

theorem legible_sign {k : Kind} (h : k.spelling ≠ []) : (sign k).Legible :=
  ⟨by simpa [isWellFormed] using h, nofun⟩

theorem legible_name {s : String} (h : isName s = true) : (name s).Legible := ⟨h, nofun⟩

theorem legible_number {n : Nat} (h : n < 0x8000000000000000) : (number n).Legible :=
  ⟨rfl, fun _ hn ↦ number.inj hn ▸ h⟩

/-- A legible mark is read as its token. -/
theorem Legible.read {m : Mark} (h : m.Legible) : Token.read m.lexeme = .ok m.token.key := by
  rw [read_lexeme h.1]
  cases m with
  | number n => exact if_pos (h.2 n rfl)
  | name s => rfl
  | sign k => rfl

theorem mapM_read_lexeme {ms : List Mark} (h : ∀ m ∈ ms, m.Legible) :
    (ms.map lexeme).mapM Token.read = .ok (ms.map fun m ↦ m.token.key) := by
  induction ms with
  | nil => rfl
  | cons m ms ih =>
    obtain ⟨hm, hms⟩ := List.forall_mem_cons.mp h
    rw [List.map_cons, List.mapM_cons, hm.read, ih hms]
    rfl

/-- A number that is out of range spoils the marks around it. -/
theorem mapM_read_lexeme_error {ms : List Mark} (hform : ∀ m ∈ ms, m.isWellFormed = true) {n : Nat}
    (hmem : number n ∈ ms) (hn : 0x8000000000000000 ≤ n) :
    ∃ cause, (ms.map lexeme).mapM read = .error cause := by
  induction ms with
  | nil => contradiction
  | cons m ms ih =>
    rw [List.map_cons, List.mapM_cons, read_lexeme (hform m List.mem_cons_self)]
    cases hm : m.meaning with
    | error cause => exact ⟨cause, rfl⟩
    | ok k =>
      rcases List.mem_cons.mp hmem with rfl | hmem
      · simp [meaning, Nat.not_lt.mpr hn] at hm
      · obtain ⟨cause, hcause⟩ := ih (fun m hm ↦ hform m (List.mem_cons_of_mem _ hm)) hmem
        exact ⟨cause, by simp only [hcause, bind, Except.bind]⟩

/-- Marks in a row with a blank after each. -/
def spaced (ms : List Mark) : List Char := ms.flatMap fun m ↦ m.lexeme ++ [' ']

theorem lexemes_spaced {ms : List Mark} (h : ∀ m ∈ ms, m.isWellFormed = true) :
    lexemes (spaced ms) = ms.map lexeme := by
  induction ms with
  | nil => rfl
  | cons m ms ih =>
    have hrest := ih fun m hm ↦ h m (List.mem_cons_of_mem _ hm)
    have hcut : lexemes (m.lexeme ++ ' ' :: spaced ms) = m.lexeme :: lexemes (spaced ms) := by
      rw [lexemes_append_cons _ (by decide), lexemes_lexeme (h m List.mem_cons_self),
        lexemes_cons_of_layout (by decide)]
      rfl
    rw [spaced, List.flatMap_cons, List.append_assoc, List.map_cons, ← hrest]
    exact hcut

end Mark

end ExprLang.Token
