import WireSchema.Layout
import WireSchema.Group

/-!
# Reading structures

A structure is read field by field in wire order. Derived fields are kept aside, in a frame of the
structure that they belong to, until the blob or the group that they describe is read; the value
that results holds content alone.

* `Limits` bounds the size of the blobs and groups that a reader accepts.
* `Schema.read` reads a structure wherever a cursor stands, `Schema.decode` from a whole input.
-/

namespace WireSchema

/-- The largest blobs and groups that a reader accepts. -/
structure Limits where
  /-- The number of items of a group that another field governs. -/
  maxItems : Nat := 2 ^ 64 - 1
  /-- The number of bytes of a blob that another field governs. -/
  maxBlobLength : Nat := 2 ^ 64 - 1
deriving DecidableEq, Repr

/-- The derived fields that were read so far, the latest first. -/
abbrev Frame := List (String × UInt64)

namespace Decode

/-- Refuses a size or a count above the limit. -/
def limited (found limit : Nat) : Reader Unit :=
  if found ≤ limit then pure () else throw (.lengthExceeded found limit)

/-- The size or count that the field `name` held. -/
def governing (owner : Structure) (frame : Frame) (name : String) : Reader Nat :=
  match frame.lookup name with
  | some n => pure n.toNat
  | none => throw (.malformed (.notDecoded owner.name name))

/-- Reads one item of a group. -/
def element (nested : String → Reader Record) : Element → Reader Value
  | .struct type => return .record (← nested type)
  | .scalar width => return .uint (← Reader.scalar width)
  | .blob size => return .bytes (← Reader.take size)

/-- Reads the items of a group. -/
def group (nested : String → Reader Record) (limits : Limits) (owner : Structure) (frame : Frame)
    (item : Element) : Cardinality → Reader (List Value)
  | .fixed count => Group.counted (element nested item) count
  | .counted sizeField => do
    let count ← governing owner frame sizeField
    limited count limits.maxItems
    Group.counted (element nested item) count
  | .budgeted sizeField => do
    let budget ← governing owner frame sizeField
    Group.budgetedWith
      -- the items are not known in advance, so each is held to the limit before it is read
      (fun before => do
        limited (before + 1) limits.maxItems
        element nested item)
      budget

/-- Reads what a field holds. What a derived field holds is a number, which is no content. -/
def content (nested : String → Reader Record) (limits : Limits) (owner : Structure)
    (frame : Frame) : FieldKind → Reader Value
  | .scalar width => return .uint (← Reader.scalar width)
  | .fixedBlob size => return .bytes (← Reader.take size)
  | .variableBlob sizeField => do
    let length ← governing owner frame sizeField
    limited length limits.maxBlobLength
    return .bytes (← Reader.take length)
  | .embedded type => return .record (← nested type)
  | .repeated item cardinality =>
    return .list (← group nested limits owner frame item cardinality)
  | .derived width _ _ => return .uint (← Reader.scalar width)

/-- Reads the fields in order, with the derived fields that were read before them. -/
def fields (nested : String → Reader Record) (limits : Limits) (owner : Structure) :
    List Field → Frame → Reader Record
  | [], _ => return []
  | f :: rest, frame =>
    match f.kind with
    | .derived width _ _ => do
      let n ← Reader.scalar width
      fields nested limits owner rest ((f.name, n) :: frame)
    | kind => do
      let v ← content nested limits owner frame kind
      return (f.name, v) :: (← fields nested limits owner rest frame)

/-- Reads a structure, given how to read the structures that it refers to. -/
def structure? (limits : Limits) (nested : String → Reader Record) (s : Structure) :
    Reader Record :=
  fields nested limits s s.fields []

end Decode

namespace Schema

/-- Reads the structure `name`, taking exactly the bytes of its encoding. -/
def read (schema : Schema) (limits : Limits) (name : String) : Reader Record :=
  interpret (fun name => throw (.malformed (.unknownStructure name))) (Decode.structure? limits)
    schema.structures name

/-- Reads the structure `name` from the whole of an input. -/
def decode (schema : Schema) (limits : Limits) (name : String) (input : Bytes) :
    Except Error Record :=
  (schema.read limits name).decode input

end Schema

end WireSchema
