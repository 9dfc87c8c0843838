import WireSchema.Layout

/-!
# Descriptions of schemas

`Schema.describe` is a schema for people to read: every structure with its size, its fields in wire
order and its constants, then every enumeration with its labels. Types are in the order of their
names.
-/

namespace WireSchema

/-- The name of a scalar type. -/
def Width.typeName (w : Width) : String := s!"u{w.bytes * 8}"

/-- The name of a rule of derivation. -/
def Derivation.name : Derivation → String
  | byteLength => "ByteLength"
  | itemCount => "ItemCount"
  | groupSize => "GroupSize"

/-- The type of an item. -/
def Element.describe : Element → String
  | struct type => type
  | scalar width => width.typeName
  | blob size => s!"bytes[{size}]"

/-- What governs the number of items. -/
def Cardinality.describe : Cardinality → String
  | fixed count => s!"{count}"
  | counted sizeField => sizeField
  | budgeted sizeField => s!"{sizeField} bytes"

/-- The type of a field. -/
def FieldKind.describe : FieldKind → String
  | scalar width => width.typeName
  | fixedBlob size => s!"bytes[{size}]"
  | variableBlob sizeField => s!"bytes[{sizeField}]"
  | embedded type => type
  | repeated element cardinality => s!"{element.describe}[{cardinality.describe}]"
  | derived width content rule => s!"{width.typeName} = {rule.name}({content})"

/-- The lines about a structure. -/
def Structure.describe (s : Structure) : List String :=
  let extent :=
    match s.fixedSize with
    | some n => s!"{n} bytes"
    | none => "variable"
  s!"{s.name} ({extent})" ::
    (s.fields.map fun f => s!"  {f.name}: {f.kind.describe}") ++
    (s.constants.map fun c => s!"  {c.name}: const {c.width.typeName} = {c.value}")

/-- The lines about an enumeration. -/
def Enumeration.describe (e : Enumeration) : List String :=
  s!"{e.name} (enum {e.width.typeName})" ::
    e.labels.map fun label => s!"  {label.name} = {label.value}"

/-- The description of a schema, a line for each of its parts. -/
def Schema.describe (schema : Schema) : String :=
  String.join <|
    (schema.structuresByName.flatMap Structure.describe ++
      schema.enumerations.flatMap Enumeration.describe).map (· ++ "\n")

end WireSchema
