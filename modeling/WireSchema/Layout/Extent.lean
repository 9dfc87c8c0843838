import WireSchema.Layout

/-!
# The extent of fields

How many bytes a field takes: exactly, if that does not depend on the value (`fixedSize?`), and at
least (`minSize`). Nested structures are looked up in the list of the structures that are already
laid out.

Sizes are summed without bound, and brought into the range of a machine word at the end of a
structure: an exact size outside of it is no size, and a least size outside of it becomes the
largest word.
-/

namespace WireSchema

/-- The number, if it is a machine word. -/
def word? (n : Nat) : Option Nat := if n < 2 ^ 64 then some n else none

/-- The number, or the largest machine word if that is less. -/
def saturate (n : Nat) : Nat := min n (2 ^ 64 - 1)

namespace Element

/-- The length of an item, if it is the same for all values. -/
def fixedSize? (structures : List Structure) : Element → Option Nat
  | struct type => (findStructure? structures type).bind (·.fixedSize)
  | scalar width => some width.bytes
  | blob size => some size

/-- The length of the shortest item. -/
def minSize (structures : List Structure) : Element → Nat
  | struct type => ((findStructure? structures type).map (·.minSize)).getD 0
  | scalar width => width.bytes
  | blob size => size

/-- The kind of a field that holds a single item. -/
def single : Element → FieldKind
  | struct type => .embedded type
  | scalar width => .scalar width
  | blob size => .fixedBlob size

end Element

namespace FieldKind

/-- The length of the field, if it is the same for all values. -/
def fixedSize? (structures : List Structure) : FieldKind → Option Nat
  | scalar width => some width.bytes
  | derived width _ _ => some width.bytes
  | fixedBlob size => some size
  | variableBlob _ => none
  | embedded type => (Element.struct type).fixedSize? structures
  | repeated item (.fixed count) => (item.fixedSize? structures).map (· * count)
  | repeated _ _ => none

/-- The length of the field at its shortest. -/
def minSize (structures : List Structure) : FieldKind → Nat
  | scalar width => width.bytes
  | derived width _ _ => width.bytes
  | fixedBlob size => size
  | variableBlob _ => 0
  | embedded type => (Element.struct type).minSize structures
  | repeated item (.fixed count) => item.minSize structures * count
  | repeated _ _ => 0

end FieldKind

/-- The length of all values of a list of fields, if there is one and it is a machine word. -/
def fixedSizeOf (structures : List Structure) (fields : List Field) : Option Nat := do
  word? (← fields.mapM (·.kind.fixedSize? structures)).sum

/-- The length of a list of fields at its shortest, within the range of a machine word. -/
def minSizeOf (structures : List Structure) (fields : List Field) : Nat :=
  saturate (fields.map (·.kind.minSize structures)).sum

end WireSchema
