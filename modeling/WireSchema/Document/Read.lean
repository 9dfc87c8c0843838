import WireSchema.Document.Words
import WireSchema.Node
import WireSchema.Json.Parse

/-!
# Reading schema documents

A document is a mapping of type names to descriptors. A descriptor says under the key `type` what
kind of type it is; as a sequence, it begins with its kind. Keys that a part does not know are
passed over, but none that it knows may be given twice.

* `Document.ofEntries?` reads the types of a document from trees.
* `Document.ofJson?` reads a document from a JSON text.
-/

namespace WireSchema

/-- The size of an attribute: a number, or a name. -/
def Size.ofNode? : Node → Option Size
  | .string name => some (.field name)
  | node => node.asUInt?.map .fixed

/-- A label of an enumeration. -/
def Label.ofNode? (node : Node) : Option Label := do
  match ← node.fields? Label.fieldNames with
  | [some name, some value] => return ⟨← name.asString?, ← value.asUInt?⟩
  | _ => none

/-- An attribute of a structure. -/
def Attribute.ofNode? (node : Node) : Option Attribute := do
  match ← node.fields? Attribute.fieldNames with
  | [name, some type, size, sizing, disposition, value, signedness] =>
    return {
      name := ← Node.optional Node.asString? name
      type := ← type.asString?
      size := ← Node.optional Size.ofNode? size
      sizing := ← Node.optional (Node.word? Sizing.words) sizing
      disposition := ← Node.optional (Node.word? Disposition.words) disposition
      value := ← Node.optional Node.asUInt? value
      signedness := ← Node.optional (Node.word? Signedness.words) signedness }
  | _ => none

namespace Descriptor

/-- A descriptor of the given kind, from its other fields. -/
def ofFields? : DescriptorTag → List (Option Node) → Option Descriptor
  | .byte, [some size, signedness] => do
    return .byte (← size.asUInt?) (← Node.optional (Node.word? Signedness.words) signedness)
  | .enum, [some size, none] => do
    return .enum (← size.asUInt?) []
  | .enum, [some size, some values] => do
    return .enum (← size.asUInt?) (← (← values.asSequence?).mapM Label.ofNode?)
  | .struct, [some layout] => do
    return .struct (← (← layout.asSequence?).mapM Attribute.ofNode?)
  | _, _ => none

/-- Whether a key is that of the kind of a descriptor. -/
def isTag (key : Node) : Bool := key.asString? == some tagKey

/-- The kind that a node names. -/
def tag? (node : Node) : Option DescriptorTag := do
  DescriptorTag.words.lookup (← node.asString?)

/-- A descriptor of a type. -/
def ofNode? : Node → Option Descriptor
  | .mapping entries =>
    match entries.filter fun (key, _) => isTag key with
    | [(_, node)] => do
      let tag ← tag? node
      let others := entries.filter fun (key, _) => !isTag key
      ofFields? tag (← (Node.mapping others).fields? tag.fieldNames)
    | _ => none
  | .sequence (node :: rest) => do
    let tag ← tag? node
    ofFields? tag (← (Node.sequence rest).fields? tag.fieldNames)
  | _ => none

end Descriptor

namespace Document

/-- The document of the given names and trees. Each tree must be a descriptor; of the types of one
name, the last counts. -/
def ofEntries? (entries : List (String × Node)) : Option Document := do
  return ofList (← entries.mapM fun (name, node) => do return (name, ← Descriptor.ofNode? node))

/-- The document of a JSON value. -/
def ofJsonValue? : Json → Option Document
  | .object members => ofEntries? (members.map fun (name, v) => (name, Node.ofJson v))
  | _ => none

/-- The document of a JSON text. -/
def ofJson? (text : String) : Option Document := (Json.parse? text).bind ofJsonValue?

end Document

end WireSchema
