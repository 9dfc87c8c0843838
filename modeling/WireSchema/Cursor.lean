import WireSchema.Scalar

/-!
# Reading from a position in the input

A `Cursor` is a position in an input: how many bytes lie before it, and the bytes after it. A
`Reader` takes a cursor and either returns a value or fails, and in both cases says where the cursor
stands afterwards: a failure part of the way through a structure leaves the cursor where the faulty
part begins, and a reader of raw bytes or of a scalar that fails does not move at all.

* `Reader.atLeast`, `Reader.take`, `Reader.scalar` and `Reader.exhausted` are the primitive readers.
* `Reader.decode` runs a reader on a whole input and refuses what is left over.
-/

namespace WireSchema

/-- A position in an input. -/
structure Cursor where
  /-- The number of bytes before the position. -/
  offset : Nat
  /-- The bytes after the position. -/
  rest : Bytes
deriving DecidableEq, Repr

namespace Cursor

/-- The first position of an input. -/
def start (input : Bytes) : Cursor := ⟨0, input⟩

/-- The number of bytes after the position. -/
def remaining (c : Cursor) : Nat := c.rest.length

/-- The number of bytes of the input. -/
def length (c : Cursor) : Nat := c.offset + c.rest.length

/-- The position `n` bytes further, unless the input ends before it. -/
def advance? (c : Cursor) (n : Nat) : Option Cursor :=
  if n ≤ c.remaining then some ⟨c.offset + n, c.rest.drop n⟩ else none

end Cursor

/-- A computation that reads from a cursor and may fail; a failure, too, leaves the cursor at the
place where it arose. -/
abbrev Reader := EStateM Error Cursor

namespace Reader

/-- Refuses to go on unless `n` bytes are left. -/
def atLeast (n : Nat) : Reader Unit := fun c =>
  if n ≤ c.remaining then .ok () c else .error (.outOfRange n c.remaining) c

/-- The next `n` bytes. -/
def take (n : Nat) : Reader Bytes := fun c =>
  -- what is taken is counted, not what is left, so the cost does not depend on the whole input
  let taken := c.rest.take n
  if taken.length = n then .ok taken ⟨c.offset + n, c.rest.drop n⟩
  else .error (.outOfRange n c.remaining) c

/-- The next scalar of the given width. -/
def scalar (w : Width) : Reader UInt64 := do
  return UInt64.ofNat (leValue (← take w.bytes))

/-- Refuses input that is left over. -/
def exhausted : Reader Unit := fun c =>
  match c.rest with
  | [] => .ok () c
  | _ :: _ => .error (.trailingData c.remaining) c

/-- The outcome of a reader at a cursor, without the cursor. -/
def result {α : Type} (r : Reader α) (c : Cursor) : Except Error α :=
  match r c with
  | .ok a _ => .ok a
  | .error e _ => .error e

/-- Runs a reader on the whole of an input. -/
def decode {α : Type} (r : Reader α) (input : Bytes) : Except Error α :=
  result (do let a ← r; exhausted; return a) (.start input)

theorem take_eq_ok {n : Nat} {c : Cursor} (h : n ≤ c.remaining) :
    take n c = .ok (c.rest.take n) ⟨c.offset + n, c.rest.drop n⟩ := by
  have hl : (c.rest.take n).length = n := by
    rw [List.length_take]
    exact Nat.min_eq_left h
  simp only [take, hl, if_true]

theorem take_eq_error {n : Nat} {c : Cursor} (h : c.remaining < n) :
    take n c = .error (.outOfRange n c.remaining) c := by
  have hl : (c.rest.take n).length ≠ n := by
    rw [List.length_take]
    exact Nat.ne_of_lt (Nat.lt_of_le_of_lt (Nat.min_le_right _ _) h)
  simp only [take, hl, if_false]

end Reader

end WireSchema
