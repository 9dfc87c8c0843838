import WireSchema.Width
import WireSchema.Error

/-!
# Scalars and fixed blobs

The conversions between numbers, byte strings and the bytes on the wire that every layer above is
built from.

* `Width.encode` writes a number at a width, `scalarOfBytes` reads up to eight bytes as a number.
* `fit` fills a byte string up to a declared length with zero bytes on the left.
* `addSizes` adds up sizes within the range of a machine word, and `checkBuffer` is the largest
  buffer there can be.
-/

namespace WireSchema

/-- The number of the given bytes, which are at most eight. -/
def scalarOfBytes (bs : Bytes) : Except Error Nat :=
  if bs.length ≤ Width.eight.bytes then .ok (leValue bs)
  else .error (.tooLarge bs.length Width.eight.bytes)

/-- Refuses a number that does not fit the width. -/
def Width.check (w : Width) (n : Nat) : Except Error Unit :=
  if n ≤ w.maxValue then .ok () else .error (.overflow n w.bytes)

/-- The bytes of a number at the width, unless it does not fit. -/
def Width.encode (w : Width) (n : Nat) : Except Error Bytes :=
  if n ≤ w.maxValue then .ok (leBytes w.bytes n) else .error (.overflow n w.bytes)

/-- Refuses a size that is not a machine word. -/
def checkSize (size : Nat) : Except Error Unit :=
  if size < 2 ^ 64 then .ok () else .error (.abort .sizeOverflow)

/-- Refuses to build a buffer of 2^63 bytes or more. -/
def checkBuffer (size : Nat) : Except Error Unit :=
  if size < 2 ^ 63 then .ok () else .error (.abort .bufferTooLarge)

/-- Refuses a byte string that is longer than its field. -/
def checkLength (size : Nat) (data : Bytes) : Except Error Unit :=
  if data.length ≤ size then .ok () else .error (.tooLarge data.length size)

/-- The byte string filled up to `size` bytes with zero bytes on the left. -/
def fit (data : Bytes) (size : Nat) : Except Error Bytes := do
  checkLength size data
  checkBuffer (size - data.length)
  return List.replicate (size - data.length) 0 ++ data

/-- The sum of two sizes, unless it leaves the range of a machine word. -/
def addSize (a b : Nat) : Except Error Nat :=
  if a + b < 2 ^ 64 then .ok (a + b) else .error (.abort .sizeOverflow)

/-- The sum of `total` and the sizes of the items, taken from left to right. -/
def addSizes {α : Type} (size : α → Except Error Nat) : (total : Nat) → List α → Except Error Nat
  | total, [] => .ok total
  | total, x :: xs => do
    let n ← size x
    addSizes size (← addSize total n) xs

/-- Holds an encoding to the size that was measured beforehand. -/
def checkMeasured (size : Nat) (out : Bytes) : Except Error Bytes :=
  if out.length = size then .ok out else .error (.abort .sizeMismatch)

theorem Width.encode_eq_ok_iff {w : Width} {n : Nat} {bs : Bytes} :
    w.encode n = .ok bs ↔ n ≤ w.maxValue ∧ bs = leBytes w.bytes n := by
  unfold encode
  constructor
  · intro h
    split at h
    · next hn =>
      cases h
      exact ⟨hn, rfl⟩
    · cases h
  · rintro ⟨hn, rfl⟩
    rw [if_pos hn]

theorem Width.length_of_encode {w : Width} {n : Nat} {bs : Bytes} (h : w.encode n = .ok bs) :
    bs.length = w.bytes := by
  obtain ⟨-, rfl⟩ := encode_eq_ok_iff.1 h
  exact length_leBytes ..

/-- A number is read back from the bytes that it was written to. -/
theorem scalarOfBytes_of_encode {w : Width} {n : Nat} {bs : Bytes} (h : w.encode n = .ok bs) :
    scalarOfBytes bs = .ok n := by
  obtain ⟨hn, rfl⟩ := Width.encode_eq_ok_iff.1 h
  have hl : (leBytes w.bytes n).length ≤ Width.eight.bytes := by
    rw [length_leBytes]
    exact w.bytes_le
  rw [scalarOfBytes, if_pos hl, leValue_leBytes ((w.le_maxValue_iff n).1 hn)]

theorem checkLength_eq_ok_iff {size : Nat} {data : Bytes} :
    checkLength size data = .ok () ↔ data.length ≤ size := by
  by_cases h : data.length ≤ size <;> simp [checkLength, h]

theorem checkBuffer_eq_ok_iff {size : Nat} : checkBuffer size = .ok () ↔ size < 2 ^ 63 := by
  by_cases h : size < 2 ^ 63
  · rw [checkBuffer, if_pos h]
    exact ⟨fun _ => h, fun _ => rfl⟩
  · rw [checkBuffer, if_neg h]
    exact ⟨fun h' => (by cases h'), fun h' => absurd h' h⟩

theorem fit_eq_ok_iff {data out : Bytes} {size : Nat} :
    fit data size = .ok out ↔
      data.length ≤ size ∧ size - data.length < 2 ^ 63 ∧
        out = List.replicate (size - data.length) 0 ++ data := by
  unfold fit
  cases hl : checkLength size data with
  | error e =>
    constructor
    · intro h
      cases h
    · rintro ⟨h, -, -⟩
      rw [checkLength_eq_ok_iff.2 h] at hl
      cases hl
  | ok _ =>
    cases hb : checkBuffer (size - data.length) with
    | error e =>
      constructor
      · intro h
        cases h
      · rintro ⟨-, h, -⟩
        rw [checkBuffer_eq_ok_iff.2 h] at hb
        cases hb
    | ok _ =>
      constructor
      · intro h
        cases h
        exact ⟨checkLength_eq_ok_iff.1 hl, checkBuffer_eq_ok_iff.1 hb, rfl⟩
      · rintro ⟨-, -, rfl⟩
        rfl

theorem length_of_fit {data out : Bytes} {size : Nat} (h : fit data size = .ok out) :
    out.length = size := by
  obtain ⟨hl, -, rfl⟩ := fit_eq_ok_iff.1 h
  rw [List.length_append, List.length_replicate]
  omega

/-- A byte string that fills its field stays as it is. -/
theorem fit_self {data : Bytes} {size : Nat} (h : data.length = size) :
    fit data size = .ok data := by
  refine fit_eq_ok_iff.2 ⟨Nat.le_of_eq h, ?_, ?_⟩
  · rw [h, Nat.sub_self]
    exact Nat.two_pow_pos 63
  · rw [h, Nat.sub_self]
    rfl

theorem addSize_eq_ok_iff {a b n : Nat} : addSize a b = .ok n ↔ a + b < 2 ^ 64 ∧ n = a + b := by
  unfold addSize
  split
  · next h =>
    constructor
    · intro h'
      cases h'
      exact ⟨h, rfl⟩
    · rintro ⟨-, rfl⟩
      rfl
  · next h =>
    constructor
    · intro h'
      cases h'
    · rintro ⟨h', -⟩
      exact absurd h' h

end WireSchema
