import ExprLang.Expr.Printer
import ExprLang.Proofs.Expr.Shape

/-!
The marks of a tree, and its text. A tree is written as a row of marks, with parentheses around an
expression that would otherwise reach into what follows it. The text of a valid tree falls into
exactly these marks (`spells_text`, `spells_program`), because everything the printer puts between
two parts of a tree starts or ends with a separator. The marks of a valid tree are signs that have a
spelling, names, and the magnitudes of its integers (`forall_mem_marks`, `number_mem_marks`).
-/

set_option autoImplicit false

namespace ExprLang

open Token (Mark lexemes isSeparator lexemes_append_cons lexemes_cons_of_layout
  lexemes_cons_of_mark)

/-- `ms`, in parentheses if `closed`. -/
def enclosed (closed : Bool) (ms : List Mark) : List Mark :=
  if closed then .sign .lparen :: ms ++ [.sign .rparen] else ms

/-- An integer in marks: a number, after a minus if the integer is negative. -/
def numeral (value : Int64) : List Mark :=
  match value.toInt with
  | .ofNat n => [.number n]
  | .negSucc n => [.sign .minus, .number (n + 1)]

namespace Expr

variable {μ : Type}

mutual

/-- A tree in marks. -/
def marks : Expr μ → List Mark
  | int value => numeral value
  | binary op left right =>
    .sign .lparen :: (enclosed left.isOpen left.marks ++
      .sign op.kind :: (enclosed right.isOpen right.marks ++ [.sign .rparen]))
  | var name => [.name name]
  | assign name value => .name name :: .sign .assign :: value.marks
  | block items =>
    .sign .lbrace :: ([.sign .semicolon].intercalate (marksList items) ++ [.sign .rbrace])
  | branch condition onTrue onFalse =>
    .sign .if :: .sign .lparen :: (condition.marks ++
      .sign .rparen :: (enclosed onTrue.isOpen onTrue.marks ++ elseMarks onFalse))
  | loop condition body =>
    .sign .while :: .sign .lparen :: (condition.marks ++ .sign .rparen :: body.marks)
  | define _ name parameter body =>
    .sign .func :: .name name :: .sign .lparen :: .name parameter :: .sign .rparen :: body.marks
  | call name argument => .name name :: .sign .lparen :: (argument.marks ++ [.sign .rparen])
  | array elements =>
    .sign .lbracket :: ([.sign .comma].intercalate (marksList elements) ++ [.sign .rbracket])
  | access base index =>
    enclosed (base.isCall || base.isOpen) base.marks ++
      .sign .lbracket :: (index.marks ++ [.sign .rbracket])
  | assignCell base index value =>
    enclosed (base.isCall || base.isOpen) base.marks ++
      .sign .lbracket :: (index.marks ++ .sign .rbracket :: .sign .assign :: value.marks)
  | missing => []

def marksList : List (Expr μ) → List (List Mark)
  | [] => []
  | e :: rest => e.marks :: marksList rest

def elseMarks : Option (Expr μ) → List Mark
  | none => []
  | some e => .sign .else :: e.marks

end

/-- The marks of a program. -/
def programMarks (items : List (Expr μ)) : List Mark :=
  [.sign .semicolon].intercalate (marksList items)

theorem marksList_eq (items : List (Expr μ)) : marksList items = items.map marks := by
  induction items with
  | nil => rfl
  | cons e rest ih => rw [marksList, ih, List.map_cons]

theorem texts_eq (items : List (Expr μ)) : texts items = items.map text := by
  induction items with
  | nil => rfl
  | cons e rest ih => rw [texts, ih, List.map_cons]

/-! ### Texts fall into marks -/

/-- A text is written in marks. -/
def Spells (text : List Char) (ms : List Mark) : Prop := lexemes text = ms.map Mark.lexeme

namespace Spells

theorem nil : Spells [] [] := rfl

theorem mark {m : Mark} (h : m.isWellFormed = true) : Spells m.lexeme [m] := Mark.lexemes_lexeme h

theorem name {s : String} (h : Token.isName s = true) : Spells s.toList [.name s] :=
  mark (m := .name s) h

theorem layout {c : Char} {text : List Char} {ms : List Mark} (hc : Token.isLayout c = true)
    (h : Spells text ms) : Spells (c :: text) ms := (lexemes_cons_of_layout hc text).trans h

/-- A sign that separates stands by itself. -/
theorem sign {c : Char} {k : Token.Kind} {text : List Char} {ms : List Mark}
    (hspelling : k.spelling = [c]) (hc : (isSeparator c && !Token.isLayout c) = true)
    (h : Spells text ms) : Spells (c :: text) (.sign k :: ms) := by
  simp only [Bool.and_eq_true, Bool.not_eq_true'] at hc
  unfold Spells at h ⊢
  rw [lexemes_cons_of_mark hc.1 hc.2, h, List.map_cons, Mark.lexeme, hspelling]

/-- A text is cut before a separator. -/
theorem cut {first rest : List Char} {c : Char} {ms ns : List Mark} (hfirst : Spells first ms)
    (hc : isSeparator c = true) (hrest : Spells (c :: rest) ns) :
    Spells (first ++ c :: rest) (ms ++ ns) := by
  unfold Spells at hfirst hrest ⊢
  rw [lexemes_append_cons first hc, hfirst, hrest, List.map_append]

theorem numeral (value : Int64) :
    Spells (toString value.toInt).toList (ExprLang.numeral value) := by
  unfold ExprLang.numeral
  cases value.toInt with
  | ofNat n =>
    have htext : (toString (Int.ofNat n)).toList = Nat.toDigits 10 n := Nat.toList_repr
    rw [htext]
    exact mark (m := .number n) rfl
  | negSucc n =>
    have htext : (toString (Int.negSucc n)).toList = '-' :: Nat.toDigits 10 (n + 1) := by
      change ("-" ++ (n + 1).repr).toList = _
      rw [String.toList_append, Nat.toList_repr]
      rfl
    rw [htext]
    exact sign rfl rfl (mark (m := .number (n + 1)) rfl)

theorem parenthesised {s : String} {ms : List Mark} (h : Spells s.toList ms) (closed : Bool) :
    Spells (ExprLang.parenthesised closed s).toList (enclosed closed ms) := by
  cases closed with
  | false => exact h
  | true =>
    have htext : ("(" ++ s ++ ")").toList = '(' :: (s.toList ++ ')' :: []) := by simp
    rw [ExprLang.parenthesised, if_pos rfl, htext]
    exact sign rfl rfl (h.cut rfl (sign rfl rfl nil))

/-- Texts with a sign and layout between them are written in their marks, with the sign between
them. -/
theorem intercalate {k : Token.Kind} {c l : Char} (hspelling : k.spelling = [c])
    (hc : (isSeparator c && !Token.isLayout c) = true) (hl : Token.isLayout l = true)
    {items : List (Expr μ)} (h : ∀ e ∈ items, Spells e.text.toList e.marks) :
    Spells ([c, l].intercalate (items.map fun e ↦ e.text.toList))
      ([.sign k].intercalate (items.map marks)) := by
  induction items with
  | nil => exact nil
  | cons e rest ih =>
    have he := h e List.mem_cons_self
    cases rest with
    | nil => simpa using he
    | cons next rest =>
      have hrest := ih fun e he ↦ h e (List.mem_cons_of_mem _ he)
      have hseparator : isSeparator c = true := (Bool.and_eq_true _ _ ▸ hc).1
      simpa only [List.map_cons, List.intercalate_cons_cons, List.append_assoc, List.cons_append,
        List.nil_append] using he.cut hseparator (sign hspelling hc (layout hl hrest))

theorem symbol {op : Operator} (h : Operator.known.contains op = true) :
    Spells op.symbol.toList [.sign op.kind] := by
  cases op <;> first | contradiction | rfl

end Spells

theorem toList_intercalate_texts (separator : String) (items : List (Expr μ)) :
    (separator.intercalate (texts items)).toList =
      separator.toList.intercalate (items.map fun e ↦ e.text.toList) := by
  rw [texts_eq, String.toList_intercalate, List.map_map]
  rfl

/-- The text of a valid tree is written in its marks. -/
theorem spells_text {e : Expr μ} (h : e.isValid = true) : Spells e.text.toList e.marks := by
  -- In each case `htext` shows the separators at which the text is cut.
  induction e with
  | int value => exact .numeral value
  | binary op left right hleft hright =>
    simp only [isValid, Bool.and_eq_true] at h
    have hl := (hleft h.1.2).parenthesised left.isOpen
    have hr := (hright h.2).parenthesised right.isOpen
    have htext : (binary op left right).text.toList =
        '(' :: ((parenthesised left.isOpen left.text).toList ++ ' ' :: (op.symbol.toList ++
          ' ' :: ((parenthesised right.isOpen right.text).toList ++ ')' :: []))) := by
      simp [text]
    rw [htext, marks]
    exact .sign rfl rfl (hl.cut rfl (.layout rfl
      ((Spells.symbol h.1.1).cut rfl (.layout rfl (hr.cut rfl (.sign rfl rfl .nil))))))
  | var name => exact .name h
  | assign name value hvalue =>
    simp only [isValid, Bool.and_eq_true] at h
    have htext : (assign name value).text.toList =
        name.toList ++ ' ' :: ((Mark.sign .assign).lexeme ++
          ' ' :: value.text.toList) := by
      simp [text, Mark.lexeme, Token.Kind.spelling]
    rw [htext, marks]
    exact (Spells.name h.1).cut rfl (.layout rfl
      ((Spells.mark rfl).cut rfl (.layout rfl (hvalue h.2))))
  | block items hitems =>
    rw [isValid, isValidList_eq, List.all_eq_true] at h
    have hspells := Spells.intercalate (k := .semicolon) (c := ';') (l := ' ') rfl rfl rfl
      fun e he ↦ hitems e he (h e he)
    cases items with
    | nil =>
      have htext : (block [] : Expr μ).text.toList = '{' :: '}' :: [] := by simp [text]
      rw [htext, marks, marksList_eq]
      exact .sign rfl rfl (.sign rfl rfl .nil)
    | cons e rest =>
      have htext : (block (e :: rest)).text.toList =
          '{' :: ' ' :: ([';', ' '].intercalate ((e :: rest).map fun e ↦ e.text.toList) ++
            ' ' :: ['}']) := by
        rw [text, String.toList_append, String.toList_append, toList_intercalate_texts]
        simp
      rw [htext, marks, marksList_eq]
      exact .sign rfl rfl (.layout rfl (hspells.cut rfl (.layout rfl (.sign rfl rfl .nil))))
  | branch condition onTrue onFalse hcondition hTrue hFalse =>
    simp only [isValid, Bool.and_eq_true] at h
    have hthen := (hTrue h.1.2).parenthesised onTrue.isOpen
    have htext : (branch condition onTrue onFalse).text.toList =
        (Mark.sign .if).lexeme ++ ' ' :: '(' :: (condition.text.toList ++ ')' :: ' ' ::
          ((parenthesised onTrue.isOpen onTrue.text).toList ++ (elseText onFalse).toList)) := by
      simp [text, Mark.lexeme, Token.Kind.spelling]
    rw [htext, marks]
    refine (Spells.mark rfl).cut rfl (.layout rfl (.sign rfl rfl
      ((hcondition h.1.1).cut rfl (.sign rfl rfl (.layout rfl ?_)))))
    cases onFalse with
    | none => simpa [elseText, elseMarks] using hthen
    | some other =>
      have helse : (elseText (some other)).toList =
          ' ' :: ((Mark.sign .else).lexeme ++ ' ' :: other.text.toList) := by
        simp [elseText, Mark.lexeme, Token.Kind.spelling]
      rw [helse, elseMarks]
      exact hthen.cut rfl (.layout rfl ((Spells.mark rfl).cut rfl
        (.layout rfl (hFalse other rfl h.2))))
  | loop condition body hcondition hbody =>
    simp only [isValid, Bool.and_eq_true] at h
    have htext : (loop condition body).text.toList =
        (Mark.sign .while).lexeme ++ ' ' :: '(' :: (condition.text.toList ++ ')' :: ' ' ::
          body.text.toList) := by
      simp [text, Mark.lexeme, Token.Kind.spelling]
    rw [htext, marks]
    exact (Spells.mark rfl).cut rfl (.layout rfl (.sign rfl rfl
      ((hcondition h.1).cut rfl (.sign rfl rfl (.layout rfl (hbody h.2))))))
  | define mark name parameter body hbody =>
    simp only [isValid, Bool.and_eq_true] at h
    have htext : (define mark name parameter body).text.toList =
        (Mark.sign .func).lexeme ++ ' ' :: (name.toList ++ '(' ::
          (parameter.toList ++ ')' :: ' ' :: body.text.toList)) := by
      simp [text, Mark.lexeme, Token.Kind.spelling]
    rw [htext, marks]
    exact (Spells.mark rfl).cut rfl (.layout rfl ((Spells.name h.1.1).cut rfl (.sign rfl rfl
      ((Spells.name h.1.2).cut rfl (.sign rfl rfl (.layout rfl (hbody h.2)))))))
  | call name argument hargument =>
    simp only [isValid, Bool.and_eq_true] at h
    have htext : (call name argument).text.toList =
        name.toList ++ '(' :: (argument.text.toList ++ ')' :: []) := by
      simp [text]
    rw [htext, marks]
    exact (Spells.name h.1).cut rfl (.sign rfl rfl
      ((hargument h.2).cut rfl (.sign rfl rfl .nil)))
  | array elements helements =>
    rw [isValid, isValidList_eq, List.all_eq_true] at h
    have hspells := Spells.intercalate (k := .comma) (c := ',') (l := ' ') rfl rfl rfl
      fun e he ↦ helements e he (h e he)
    have htext : (array elements).text.toList =
        '[' :: ([',', ' '].intercalate (elements.map fun e ↦ e.text.toList) ++ ']' :: []) := by
      rw [text, String.toList_append, String.toList_append, toList_intercalate_texts]
      simp
    rw [htext, marks, marksList_eq]
    exact .sign rfl rfl (hspells.cut rfl (.sign rfl rfl .nil))
  | access base index hbase hindex =>
    simp only [isValid, Bool.and_eq_true] at h
    have hb := (hbase h.1).parenthesised (base.isCall || base.isOpen)
    have htext : (access base index).text.toList =
        (parenthesised (base.isCall || base.isOpen) base.text).toList ++ '[' ::
          (index.text.toList ++ ']' :: []) := by
      simp [text]
    rw [htext, marks]
    exact hb.cut rfl (.sign rfl rfl ((hindex h.2).cut rfl (.sign rfl rfl .nil)))
  | assignCell base index value hbase hindex hvalue =>
    simp only [isValid, Bool.and_eq_true] at h
    have hb := (hbase h.1.1).parenthesised (base.isCall || base.isOpen)
    have htext : (assignCell base index value).text.toList =
        (parenthesised (base.isCall || base.isOpen) base.text).toList ++ '[' ::
          (index.text.toList ++ ']' :: ' ' :: ((Mark.sign .assign).lexeme ++
            ' ' :: value.text.toList)) := by
      simp [text, Mark.lexeme, Token.Kind.spelling]
    rw [htext, marks]
    exact hb.cut rfl (.sign rfl rfl ((hindex h.1.2).cut rfl (.sign rfl rfl (.layout rfl
      ((Spells.mark rfl).cut rfl (.layout rfl (hvalue h.2)))))))
  | missing => contradiction

/-- The text of a program is written in its marks. -/
theorem spells_program {items : List (Expr μ)} (h : ∀ e ∈ items, e.isValid = true) :
    Spells (program items).toList (programMarks items) := by
  rw [program, toList_intercalate_texts, programMarks, marksList_eq]
  exact .intercalate rfl rfl rfl fun e he ↦ spells_text (h e he)

/-! ### The marks of valid trees -/

theorem forall_mem_intercalate {P : Mark → Prop} {separator : Mark} (hseparator : P separator)
    {items : List (Expr μ)} (h : ∀ e ∈ items, ∀ m ∈ e.marks, P m) :
    ∀ m ∈ [separator].intercalate (marksList items), P m := by
  rw [marksList_eq]
  induction items with
  | nil => simp
  | cons e rest ih =>
    have he := h e List.mem_cons_self
    have hrest := ih fun e he ↦ h e (List.mem_cons_of_mem _ he)
    cases rest with
    | nil => simpa using he
    | cons next rest =>
      rw [List.map_cons, List.map_cons, List.intercalate_cons_cons, List.forall_mem_append,
        List.forall_mem_append]
      exact ⟨⟨he, by simpa using hseparator⟩, hrest⟩

theorem mem_intercalate {m separator : Mark} {items : List (Expr μ)} {e : Expr μ} (he : e ∈ items)
    (hm : m ∈ e.marks) : m ∈ [separator].intercalate (marksList items) := by
  rw [marksList_eq]
  induction items with
  | nil => contradiction
  | cons first rest ih =>
    cases rest with
    | nil => simpa [List.mem_singleton.mp he] using hm
    | cons next rest =>
      rw [List.map_cons, List.map_cons, List.intercalate_cons_cons, List.mem_append,
        List.mem_append]
      rcases List.mem_cons.mp he with rfl | he
      · exact .inl (.inl hm)
      · exact .inr (ih he)

theorem mem_enclosed {m : Mark} {ms : List Mark} (hm : m ∈ ms) (closed : Bool) :
    m ∈ enclosed closed ms := by
  cases closed <;> simp [enclosed, hm]

theorem forall_mem_enclosed {P : Mark → Prop} (hsign : ∀ k : Token.Kind, k.spelling ≠ [] →
    P (.sign k)) {ms : List Mark} (h : ∀ m ∈ ms, P m) (closed : Bool) :
    ∀ m ∈ enclosed closed ms, P m := by
  cases closed with
  | false => exact h
  | true =>
    rw [enclosed, if_pos rfl, List.forall_mem_append, List.forall_mem_cons]
    exact ⟨⟨hsign _ (by decide), h⟩, by simpa using hsign _ (by decide)⟩

/-- What holds of all signs that have a spelling, of all names, and of the magnitudes of the
integers in a valid tree, holds of all its marks. -/
theorem forall_mem_marks {P : Mark → Prop}
    (hsign : ∀ k : Token.Kind, k.spelling ≠ [] → P (.sign k))
    (hname : ∀ s, Token.isName s = true → P (.name s)) {e : Expr μ} (h : e.isValid = true)
    (hnumber : ∀ value ∈ e.literals, P (.number value.toInt.natAbs)) : ∀ m ∈ e.marks, P m := by
  induction e with
  | int value =>
    have hvalue := hnumber value List.mem_cons_self
    rw [marks, numeral]
    cases hv : value.toInt with
    | ofNat n => simpa [hv] using hvalue
    | negSucc n =>
      rw [hv] at hvalue
      exact List.forall_mem_cons.mpr ⟨hsign _ (by decide), by simpa using hvalue⟩
  | binary op left right hleft hright =>
    simp only [isValid, Bool.and_eq_true] at h
    simp only [literals, List.forall_mem_append] at hnumber
    simp only [marks, List.forall_mem_cons, List.forall_mem_append]
    have hop : op.kind.spelling ≠ [] := by
      have hknown := h.1.1
      cases op <;> first | contradiction | decide
    exact ⟨hsign _ (by decide), forall_mem_enclosed hsign (hleft h.1.2 hnumber.1) _, hsign _ hop,
      forall_mem_enclosed hsign (hright h.2 hnumber.2) _, hsign _ (by decide), by simp⟩
  | var name => simpa [marks] using hname name h
  | assign name value hvalue =>
    simp only [isValid, Bool.and_eq_true] at h
    simp only [marks, List.forall_mem_cons]
    exact ⟨hname _ h.1, hsign _ (by decide), hvalue h.2 hnumber⟩
  | block items hitems =>
    rw [isValid, isValidList_eq, List.all_eq_true] at h
    rw [literals, literalsList_eq] at hnumber
    simp only [marks, List.forall_mem_cons, List.forall_mem_append]
    refine ⟨hsign _ (by decide), forall_mem_intercalate (hsign _ (by decide)) fun e he ↦
      hitems e he (h e he) fun value hvalue ↦ hnumber value (List.mem_flatMap.mpr ⟨e, he, hvalue⟩),
      hsign _ (by decide), by simp⟩
  | branch condition onTrue onFalse hcondition hTrue hFalse =>
    simp only [isValid, Bool.and_eq_true] at h
    simp only [literals, List.forall_mem_append] at hnumber
    simp only [marks, List.forall_mem_cons, List.forall_mem_append]
    refine ⟨hsign _ (by decide), hsign _ (by decide), hcondition h.1.1 hnumber.1.1,
      hsign _ (by decide), forall_mem_enclosed hsign (hTrue h.1.2 hnumber.1.2) _, ?_⟩
    cases onFalse with
    | none => simp [elseMarks]
    | some other =>
      exact List.forall_mem_cons.mpr ⟨hsign _ (by decide), hFalse other rfl h.2 hnumber.2⟩
  | loop condition body hcondition hbody =>
    simp only [isValid, Bool.and_eq_true] at h
    simp only [literals, List.forall_mem_append] at hnumber
    simp only [marks, List.forall_mem_cons, List.forall_mem_append]
    exact ⟨hsign _ (by decide), hsign _ (by decide), hcondition h.1 hnumber.1,
      hsign _ (by decide), hbody h.2 hnumber.2⟩
  | define mark name parameter body hbody =>
    simp only [isValid, Bool.and_eq_true] at h
    simp only [marks, List.forall_mem_cons]
    exact ⟨hsign _ (by decide), hname _ h.1.1, hsign _ (by decide), hname _ h.1.2,
      hsign _ (by decide), hbody h.2 hnumber⟩
  | call name argument hargument =>
    simp only [isValid, Bool.and_eq_true] at h
    simp only [marks, List.forall_mem_cons, List.forall_mem_append]
    exact ⟨hname _ h.1, hsign _ (by decide), hargument h.2 hnumber, hsign _ (by decide), by simp⟩
  | array elements helements =>
    rw [isValid, isValidList_eq, List.all_eq_true] at h
    rw [literals, literalsList_eq] at hnumber
    simp only [marks, List.forall_mem_cons, List.forall_mem_append]
    refine ⟨hsign _ (by decide), forall_mem_intercalate (hsign _ (by decide)) fun e he ↦
      helements e he (h e he) fun value hvalue ↦
        hnumber value (List.mem_flatMap.mpr ⟨e, he, hvalue⟩), hsign _ (by decide), by simp⟩
  | access base index hbase hindex =>
    simp only [isValid, Bool.and_eq_true] at h
    simp only [literals, List.forall_mem_append] at hnumber
    simp only [marks, List.forall_mem_cons, List.forall_mem_append]
    exact ⟨forall_mem_enclosed hsign (hbase h.1 hnumber.1) _, hsign _ (by decide),
      hindex h.2 hnumber.2, hsign _ (by decide), by simp⟩
  | assignCell base index value hbase hindex hvalue =>
    simp only [isValid, Bool.and_eq_true] at h
    simp only [literals, List.forall_mem_append] at hnumber
    simp only [marks, List.forall_mem_cons, List.forall_mem_append]
    exact ⟨forall_mem_enclosed hsign (hbase h.1.1 hnumber.1.1) _, hsign _ (by decide),
      hindex h.1.2 hnumber.1.2, hsign _ (by decide), hsign _ (by decide), hvalue h.2 hnumber.2⟩
  | missing => contradiction

/-- The magnitude of every integer in a tree is one of its marks. -/
theorem number_mem_marks {e : Expr μ} {value : Int64} (h : value ∈ e.literals) :
    Mark.number value.toInt.natAbs ∈ e.marks := by
  induction e with
  | int other =>
    rw [List.mem_singleton.mp h, marks, numeral]
    cases other.toInt <;> simp [Int.natAbs_negSucc]
  | binary op left right hleft hright =>
    rw [literals, List.mem_append] at h
    rcases h with h | h
    · simp [marks, mem_enclosed (hleft h)]
    · simp [marks, mem_enclosed (hright h)]
  | var name => contradiction
  | assign name body hbody => simpa [marks] using hbody h
  | block items hitems =>
    rw [literals, literalsList_eq, List.mem_flatMap] at h
    obtain ⟨e, he, hvalue⟩ := h
    simp [marks, mem_intercalate he (hitems e he hvalue)]
  | branch condition onTrue onFalse hcondition hTrue hFalse =>
    rw [literals, List.mem_append, List.mem_append] at h
    rcases h with (h | h) | h
    · simp [marks, hcondition h]
    · simp [marks, mem_enclosed (hTrue h)]
    · cases onFalse with
      | none => contradiction
      | some other => simp [marks, elseMarks, hFalse other rfl h]
  | loop condition body hcondition hbody =>
    rw [literals, List.mem_append] at h
    rcases h with h | h
    · simp [marks, hcondition h]
    · simp [marks, hbody h]
  | define mark name parameter body hbody => simpa [marks] using hbody h
  | call name argument hargument => simp [marks, hargument h]
  | array elements helements =>
    rw [literals, literalsList_eq, List.mem_flatMap] at h
    obtain ⟨e, he, hvalue⟩ := h
    simp [marks, mem_intercalate he (helements e he hvalue)]
  | access base index hbase hindex =>
    rw [literals, List.mem_append] at h
    rcases h with h | h
    · simp [marks, mem_enclosed (hbase h)]
    · simp [marks, hindex h]
  | assignCell base index value hbase hindex hvalue =>
    rw [literals, List.mem_append, List.mem_append] at h
    rcases h with (h | h) | h
    · simp [marks, mem_enclosed (hbase h)]
    · simp [marks, hindex h]
    · simp [marks, hvalue h]
  | missing => contradiction

end Expr

end ExprLang
