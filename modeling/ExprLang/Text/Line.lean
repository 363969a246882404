/-!
Lines of a byte stream, read through a buffer. A line ends with a new-line byte, which may have a
carriage return before it, or with the stream. A line that fills the buffer comes in pieces.
-/

set_option autoImplicit false

namespace ExprLang.Text

structure Line where
  bytes : List UInt8
  /-- The line goes on, but the buffer was full. -/
  isCut : Bool

namespace Line

/-- The size of the buffer. -/
def capacity : Nat := 4096

def withoutReturn (bytes : List UInt8) : List UInt8 :=
  if bytes.getLast? = some 13 then bytes.dropLast else bytes

/-- The first line, and the bytes after it; none if there are no bytes. A carriage return at the end
of a full buffer is left for the next piece. -/
def next? (bytes : List UInt8) : Option (Line × List UInt8) :=
  let line := bytes.takeWhile (· ≠ 10)
  if bytes.isEmpty then none
  else if line.length < capacity then
    if line.length < bytes.length then
      some (⟨withoutReturn line, false⟩, bytes.drop (line.length + 1))
    else some (⟨line, false⟩, [])
  else
    let piece := withoutReturn (line.take capacity)
    some (⟨piece, true⟩, bytes.drop (max piece.length 1))

theorem length_lt_of_next? {bytes : List UInt8} {line : Line} {rest : List UInt8}
    (h : next? bytes = some (line, rest)) : rest.length < bytes.length := by
  unfold next? at h
  cases bytes with
  | nil => simp at h
  | cons b bs =>
    simp only [List.isEmpty_cons, Bool.false_eq_true, if_false] at h
    split at h
    · split at h
      · simp only [Option.some.injEq, Prod.mk.injEq] at h
        rw [← h.2, List.length_drop, List.length_cons]
        omega
      · simp only [Option.some.injEq, Prod.mk.injEq] at h
        rw [← h.2]
        simp
    · simp only [Option.some.injEq, Prod.mk.injEq] at h
      rw [← h.2, List.length_drop, List.length_cons]
      omega

/-- All lines of a stream. -/
def all (bytes : List UInt8) : List Line :=
  match _h : next? bytes with
  | none => []
  | some (line, rest) => line :: all rest
termination_by bytes.length
decreasing_by exact length_lt_of_next? _h

end Line

end ExprLang.Text
