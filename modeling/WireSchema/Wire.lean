import WireSchema.Group

/-!
# Types with a place on the wire

A type in `Wire` can be read from a cursor, written, and measured. Machine words and byte strings of
a fixed length are in `Wire`; so is a pair of types that are, one after the other, and with it any
structure that amounts to its fields in order (`Wire.ofFields`).

* `Word` is a machine word that can hold a size or a count.
* `Blob` is a byte string of a fixed length.
* `Wire.encode` and `Wire.decode` are whole encodings.
-/

namespace WireSchema

/-- A type whose values can be read, written and measured. -/
class Wire (α : Type) where
  read : Reader α
  write : α → Except Error Bytes
  /-- The length of the encoding. -/
  size : α → Nat

namespace Wire

variable {α β : Type}

/-- The encoding of a value, held to its measure. -/
def encode [Wire α] (a : α) : Except Error Bytes := do
  checkSize (size a)
  checkBuffer (size a)
  checkMeasured (size a) (← write a)

/-- The value whose encoding is the whole of an input. -/
def decode (α : Type) [Wire α] (input : Bytes) : Except Error α :=
  Reader.decode read input

/-- One value after another. -/
instance [Wire α] [Wire β] : Wire (α × β) where
  read := do
    let a ← read
    let b ← read
    return (a, b)
  write p := do
    let first ← write p.1
    let second ← write p.2
    return first ++ second
  size p := size p.1 + size p.2

/-- A type whose values amount to those of another. -/
@[reducible] def ofFields [Wire α] (toFields : β → α) (build : α → β) : Wire β where
  read := do return build (← read)
  write b := write (toFields b)
  size b := size (toFields b)

/-- The length of some items together. -/
def sizeAll [Wire α] (items : List α) : Nat := (items.map size).sum

/-- The encodings of some items, one after the other. -/
def writeAll [Wire α] (items : List α) : Except Error Bytes := Group.write write items

end Wire

/-! ### Byte strings of a fixed length -/

/-- A byte string of length `n`. -/
structure Blob (n : Nat) where
  data : Bytes
  length_eq : data.length = n
deriving DecidableEq

namespace Blob

variable {n : Nat}

/-- The zero bytes. -/
def zero (n : Nat) : Blob n := ⟨List.replicate n 0, List.length_replicate ..⟩

instance : Inhabited (Blob n) := ⟨zero n⟩

/-- The next `n` bytes. -/
def read (n : Nat) : Reader (Blob n) := fun c =>
  if h : (c.rest.take n).length = n then .ok ⟨c.rest.take n, h⟩ ⟨c.offset + n, c.rest.drop n⟩
  else .error (.outOfRange n c.remaining) c

instance : Wire (Blob n) where
  read := read n
  write b := .ok b.data
  size _ := n

end Blob

/-! ### Machine words -/

/-- A machine word of one of the scalar widths. -/
class Word (α : Type) extends Wire α where
  width : Width
  ofNat : Nat → α
  toNat : α → Nat

/-- A size or a count as a word, unless it does not fit. -/
def Word.derive (α : Type) [Word α] (n : Nat) : Except Error α :=
  if n ≤ (Word.width α).maxValue then .ok (Word.ofNat n)
  else .error (.overflow n (Word.width α).bytes)

instance : Word UInt8 where
  read := do return (← Blob.read 1).data.headD 0
  write n := .ok [n]
  size _ := 1
  width := .one
  ofNat := UInt8.ofNat
  toNat := UInt8.toNat

instance : Word UInt16 where
  read := do return (← Blob.read 2).data.foldr (fun b n => b.toUInt16 ||| (n <<< 8)) 0
  write n := .ok [n.toUInt8, (n >>> 8).toUInt8]
  size _ := 2
  width := .two
  ofNat := UInt16.ofNat
  toNat := UInt16.toNat

instance : Word UInt32 where
  read := do return (← Blob.read 4).data.foldr (fun b n => b.toUInt32 ||| (n <<< 8)) 0
  write n := .ok [n.toUInt8, (n >>> 8).toUInt8, (n >>> 16).toUInt8, (n >>> 24).toUInt8]
  size _ := 4
  width := .four
  ofNat := UInt32.ofNat
  toNat := UInt32.toNat

instance : Word UInt64 where
  read := do return (← Blob.read 8).data.foldr (fun b n => b.toUInt64 ||| (n <<< 8)) 0
  write n :=
    .ok [n.toUInt8, (n >>> 8).toUInt8, (n >>> 16).toUInt8, (n >>> 24).toUInt8,
      (n >>> 32).toUInt8, (n >>> 40).toUInt8, (n >>> 48).toUInt8, (n >>> 56).toUInt8]
  size _ := 8
  width := .eight
  ofNat := UInt64.ofNat
  toNat := UInt64.toNat

/-- The number of some items as a word. -/
def Wire.countAs (υ : Type) [Word υ] {α : Type} (items : List α) : Except Error υ :=
  Word.derive υ items.length

/-- The length of some items together as a word. -/
def Wire.sizeAs (υ : Type) [Word υ] {α : Type} [Wire α] (items : List α) : Except Error υ := do
  checkSize (sizeAll items)
  Word.derive υ (sizeAll items)

end WireSchema
