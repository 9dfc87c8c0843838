import WireSchema.Bytes

/-!
# Scalar widths

A scalar on the wire takes one, two, four or eight bytes; there is no other width. `Width` holds
exactly these four, so a layout that names a width needs no further check, and `Width.ofSize?` is
where every other number of bytes is turned away.
-/

namespace WireSchema

/-- The number of bytes of a scalar. -/
inductive Width where
  | one
  | two
  | four
  | eight
deriving DecidableEq, Repr

namespace Width

/-- The number of bytes that a scalar of this width takes. -/
def bytes : Width → Nat
  | one => 1
  | two => 2
  | four => 4
  | eight => 8

/-- The largest number that a scalar of this width holds. -/
def maxValue (w : Width) : Nat := 256 ^ w.bytes - 1

/-- The width of `size` bytes, if there is one. -/
def ofSize? : Nat → Option Width
  | 1 => some one
  | 2 => some two
  | 4 => some four
  | 8 => some eight
  | _ => none

@[simp] theorem ofSize?_bytes (w : Width) : ofSize? w.bytes = some w := by
  cases w <;> rfl

theorem bytes_of_ofSize? {size : Nat} {w : Width} (h : ofSize? size = some w) :
    w.bytes = size := by
  unfold ofSize? at h
  split at h <;> cases h <;> rfl

/-- A width is known by its number of bytes. -/
theorem eq_of_bytes_eq {v w : Width} (h : v.bytes = w.bytes) : v = w := by
  have hv := ofSize?_bytes v
  rw [h, ofSize?_bytes, Option.some.injEq] at hv
  exact hv.symm

theorem bytes_pos (w : Width) : 0 < w.bytes := by
  cases w <;> decide

theorem bytes_le (w : Width) : w.bytes ≤ 8 := by
  cases w <;> decide

theorem le_maxValue_iff (w : Width) (n : Nat) : n ≤ w.maxValue ↔ n < 256 ^ w.bytes := by
  have : 0 < 256 ^ w.bytes := Nat.pow_pos (by decide)
  simp only [maxValue]
  omega

/-- The largest number of any width is a machine word. -/
theorem maxValue_lt (w : Width) : w.maxValue < 2 ^ 64 := by
  cases w <;> decide

end Width

end WireSchema
