import WireSchema.Document.Words
import WireSchema.Json.Print

/-!
# Writing schema documents

A document is written as a JSON object of its types, in the order of their names. A descriptor names
its kind first, then its fields; fields that are absent, and an empty list of labels, are left out.
-/

namespace WireSchema

/-- The size as a JSON value. -/
def Size.toJson : Size → Json
  | fixed n => .uint n
  | field name => .string name

/-- The label as a JSON value. -/
def Label.toJson (label : Label) : Json :=
  .object [("name", .string label.name), ("value", .uint label.value)]

/-- The member of a field that may be absent. -/
def optionalMember {α : Type} (name : String) (write : α → Json) : Option α → List (String × Json)
  | none => []
  | some a => [(name, write a)]

/-- The attribute as a JSON value. -/
def Attribute.toJson (a : Attribute) : Json :=
  .object <|
    optionalMember "name" .string a.name ++
    [("type", .string a.type)] ++
    optionalMember "size" Size.toJson a.size ++
    optionalMember "sizing" (fun s => .string s.word) a.sizing ++
    optionalMember "disposition" (fun d => .string d.word) a.disposition ++
    optionalMember "value" .uint a.value ++
    optionalMember "signedness" (fun s => .string s.word) a.signedness

/-- The member that names the kind of a descriptor. -/
def DescriptorTag.member (tag : DescriptorTag) : String × Json := (tagKey, .string tag.word)

/-- The descriptor as a JSON value. -/
def Descriptor.toJson : Descriptor → Json
  | byte size signedness =>
    .object (DescriptorTag.byte.member :: ("size", .uint size) ::
      optionalMember "signedness" (fun s => .string s.word) signedness)
  | enum size [] => .object [DescriptorTag.enum.member, ("size", .uint size)]
  | enum size labels =>
    .object [DescriptorTag.enum.member, ("size", .uint size),
      ("values", .array (labels.map Label.toJson))]
  | struct layout =>
    .object [DescriptorTag.struct.member, ("layout", .array (layout.map Attribute.toJson))]

namespace Document

/-- The document as a JSON value. -/
def toJson (d : Document) : Json :=
  .object (d.types.map fun (name, descriptor) => (name, descriptor.toJson))

/-- The document as a JSON text. -/
def text (d : Document) : String := d.toJson.compact

end Document

end WireSchema
