import WireSchema.Bytes
import WireSchema.Text.Blank

/-!
# Bytes as hexadecimal text

Bytes are written as two lowercase digits each, without a mark in front. Text is read more freely:
white space may stand anywhere, digits may be of either case, and the mark `0x` or `0X` may come
first.

`Hex.encode` writes, `Hex.decode?` reads, and what is written is read back (`decode?_encode`).
-/

namespace WireSchema.Hex

/-- The sixteen digits. -/
def digits : List Char :=
  ['0', '1', '2', '3', '4', '5', '6', '7', '8', '9', 'a', 'b', 'c', 'd', 'e', 'f']

/-- The digit for a number below sixteen. -/
def digit (n : Nat) : Char := digits.getD n '0'

/-- The number of a digit of either case. -/
def digitValue? (c : Char) : Option Nat :=
  let n := c.toNat
  if 0x30 ≤ n ∧ n ≤ 0x39 then some (n - 0x30)
  else if 0x61 ≤ n ∧ n ≤ 0x66 then some (n - 0x61 + 10)
  else if 0x41 ≤ n ∧ n ≤ 0x46 then some (n - 0x41 + 10)
  else none

/-- The digits of the bytes, high digit first. -/
def encodeChars (bs : Bytes) : List Char :=
  bs.flatMap fun b => [digit (b.toNat / 16), digit (b.toNat % 16)]

/-- The hexadecimal text of the bytes. -/
def encode (bs : Bytes) : String := String.ofList (encodeChars bs)

/-- The bytes of an even number of digit values, after those held in reverse. -/
def pairUp (done : Bytes) : List Nat → Option Bytes
  | [] => some done.reverse
  | [_] => none
  | high :: low :: rest => pairUp (UInt8.ofNat (16 * high + low) :: done) rest

/-- The text without the mark in front. -/
def dropMark : List Char → List Char
  | '0' :: 'x' :: rest => rest
  | '0' :: 'X' :: rest => rest
  | all => all

/-- The bytes of a text in characters. -/
def decodeChars? (text : List Char) : Option Bytes := do
  pairUp [] (← (dropMark (text.filter fun c => !isBlank c)).mapM digitValue?)

/-- The bytes of a hexadecimal text. -/
def decode? (text : String) : Option Bytes := decodeChars? text.toList

theorem digitValue?_digit {n : Nat} (h : n < 16) : digitValue? (digit n) = some n := by
  have : ∀ m : Fin 16, digitValue? (digit m.val) = some m.val := by decide
  exact this ⟨n, h⟩

theorem encodeChars_cons (b : UInt8) (bs : Bytes) :
    encodeChars (b :: bs) =
      digit (b.toNat / 16) :: digit (b.toNat % 16) :: encodeChars bs := rfl

theorem isBlank_digit {n : Nat} (h : n < 16) : isBlank (digit n) = false := by
  have : ∀ m : Fin 16, isBlank (digit m.val) = false := by decide
  exact this ⟨n, h⟩

theorem digit_ne_mark {n : Nat} (h : n < 16) : digit n ≠ 'x' ∧ digit n ≠ 'X' := by
  have : ∀ m : Fin 16, digit m.val ≠ 'x' ∧ digit m.val ≠ 'X' := by decide
  exact this ⟨n, h⟩

theorem filter_encodeChars (bs : Bytes) :
    (encodeChars bs).filter (fun c => !isBlank c) = encodeChars bs := by
  induction bs with
  | nil => rfl
  | cons b bs ih =>
    have hb := b.toNat_lt
    have hh := isBlank_digit (n := b.toNat / 16) (by omega)
    have hl := isBlank_digit (n := b.toNat % 16) (by omega)
    rw [encodeChars_cons]
    simp [hh, hl, ih]

theorem dropMark_encodeChars (bs : Bytes) : dropMark (encodeChars bs) = encodeChars bs := by
  cases bs with
  | nil => rfl
  | cons b bs =>
    have hb := b.toNat_lt
    have hl := digit_ne_mark (n := b.toNat % 16) (by omega)
    rw [encodeChars_cons]
    unfold dropMark
    split
    · next h => exact absurd (List.cons.inj (List.cons.inj h).2).1 hl.1
    · next h => exact absurd (List.cons.inj (List.cons.inj h).2).1 hl.2
    · rfl

theorem mapM_digitValue?_encodeChars (bs : Bytes) :
    (encodeChars bs).mapM digitValue? =
      some (bs.flatMap fun b => [b.toNat / 16, b.toNat % 16]) := by
  induction bs with
  | nil => rfl
  | cons b bs ih =>
    have hb := b.toNat_lt
    have hh := digitValue?_digit (n := b.toNat / 16) (by omega)
    have hl := digitValue?_digit (n := b.toNat % 16) (by omega)
    rw [encodeChars_cons, List.mapM_cons, List.mapM_cons, hh, hl, ih]
    rfl

theorem pairUp_digits (done bs : Bytes) :
    pairUp done (bs.flatMap fun b => [b.toNat / 16, b.toNat % 16]) = some (done.reverse ++ bs) := by
  induction bs generalizing done with
  | nil => simp [pairUp]
  | cons b bs ih =>
    have hb : UInt8.ofNat (16 * (b.toNat / 16) + b.toNat % 16) = b := by
      rw [Nat.div_add_mod]
      exact UInt8.ofNat_toNat
    simp [pairUp, hb, ih]

/-- Bytes are read back from the text that is written for them. -/
theorem decodeChars?_encodeChars (bs : Bytes) : decodeChars? (encodeChars bs) = some bs := by
  unfold decodeChars?
  rw [filter_encodeChars, dropMark_encodeChars, mapM_digitValue?_encodeChars]
  exact pairUp_digits [] bs

theorem decode?_encode (bs : Bytes) : decode? (encode bs) = some bs := by
  rw [decode?, encode, String.toList_ofList, decodeChars?_encodeChars]

end WireSchema.Hex
