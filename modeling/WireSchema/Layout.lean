import WireSchema.Width

/-!
# Resolved layouts

A `Structure` is a flat list of fields in wire order, together with the constants that belong to it.
A field is a scalar, a blob, a nested structure, a group of items, or a number that is derived from
another field: the length of a blob, the number of items of a group, or the length of a group.

A `Schema` lists its structures so that each refers only to structures that come after it in the
list. `interpret` uses this to give meaning to structures: the meaning of a structure is built from
the meanings of those it refers to, by recursion on the list. Reading, measuring, writing and
checking are all instances of it.
-/

namespace WireSchema

/-- What the items of a group are. -/
inductive Element where
  | struct (type : String)
  | scalar (width : Width)
  | blob (size : Nat)
deriving DecidableEq, Repr

/-- What governs the number of items of a group. -/
inductive Cardinality where
  /-- The number of items is part of the layout. -/
  | fixed (count : Nat)
  /-- The named field holds the number of items. -/
  | counted (sizeField : String)
  /-- The named field holds the number of bytes of all items together. -/
  | budgeted (sizeField : String)
deriving DecidableEq, Repr

/-- How a derived number follows from the field that it describes. -/
inductive Derivation where
  /-- The number of bytes of a blob. -/
  | byteLength
  /-- The number of items of a group. -/
  | itemCount
  /-- The number of bytes of a group. -/
  | groupSize
deriving DecidableEq, Repr

/-- The shape of a field on the wire. -/
inductive FieldKind where
  | scalar (width : Width)
  | fixedBlob (size : Nat)
  /-- A blob whose length is held by the field `sizeField`. -/
  | variableBlob (sizeField : String)
  /-- A nested structure, without a frame of its own. -/
  | embedded (type : String)
  | repeated (element : Element) (cardinality : Cardinality)
  /-- A number computed from the field `content`, never part of a value. -/
  | derived (width : Width) (content : String) (rule : Derivation)
deriving DecidableEq, Repr

/-- A field of a resolved structure. -/
structure Field where
  name : String
  kind : FieldKind
deriving DecidableEq, Repr

/-- Whether the field is part of a value. -/
def Field.isContent (f : Field) : Bool :=
  match f.kind with
  | .derived .. => false
  | _ => true

/-- A named number of a structure that is not on the wire. -/
structure Constant where
  name : String
  width : Width
  value : UInt64
deriving DecidableEq, Repr

/-- A resolved structure. -/
structure Structure where
  name : String
  /-- The fields in wire order. -/
  fields : List Field
  constants : List Constant
  /-- The length of every encoding, if it does not depend on the value. -/
  fixedSize : Option Nat
  /-- The length of the shortest encoding, or the largest machine word if that is less. -/
  minSize : Nat
deriving DecidableEq, Repr

namespace Structure

/-- The field of the given name. -/
def field? (s : Structure) (name : String) : Option Field :=
  s.fields.find? (·.name = name)

/-- The constant of the given name. -/
def constant? (s : Structure) (name : String) : Option Constant :=
  s.constants.find? (·.name = name)

end Structure

/-- A label for a number. -/
structure Label where
  name : String
  value : UInt64
deriving DecidableEq, Repr

/-- A resolved scalar with labelled values. -/
structure Enumeration where
  name : String
  width : Width
  labels : List Label
deriving DecidableEq, Repr

/-- A resolved schema. -/
structure Schema where
  /-- The structures, each before the structures that it refers to. -/
  structures : List Structure
  /-- The enumerations in the order of their names. -/
  enumerations : List Enumeration
deriving DecidableEq, Repr

/-- The structure of the given name in a list. -/
def findStructure? (structures : List Structure) (name : String) : Option Structure :=
  structures.find? (·.name = name)

namespace Schema

/-- The schema without any type. -/
def empty : Schema := ⟨[], []⟩

/-- The structure of the given name. -/
def structure? (schema : Schema) (name : String) : Option Structure :=
  findStructure? schema.structures name

/-- The structures in the order of their names. -/
def structuresByName (schema : Schema) : List Structure :=
  schema.structures.mergeSort fun s t => decide (s.name ≤ t.name)

end Schema

/-- The meaning of the structure `name`: `step` gives the meaning of a structure from the meanings
of the names that it uses, which are looked up after it in the list, and `unknown` is the meaning of
a name that is not found. -/
def interpret {β : Type} (unknown : String → β) (step : (String → β) → Structure → β) :
    List Structure → String → β
  | [], name => unknown name
  | s :: below, name =>
    if s.name = name then step (interpret unknown step below) s
    else interpret unknown step below name

section Interpret

variable {β : Type} (unknown : String → β) (step : (String → β) → Structure → β)

@[simp] theorem interpret_nil (name : String) : interpret unknown step [] name = unknown name := rfl

theorem interpret_head (s : Structure) (below : List Structure) :
    interpret unknown step (s :: below) s.name = step (interpret unknown step below) s := by
  simp [interpret]

theorem interpret_tail {s : Structure} (below : List Structure) {name : String}
    (h : s.name ≠ name) :
    interpret unknown step (s :: below) name = interpret unknown step below name := by
  simp [interpret, h]

end Interpret

end WireSchema
