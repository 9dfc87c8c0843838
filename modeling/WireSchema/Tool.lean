import WireSchema.Resolve
import WireSchema.Yaml.Read
import WireSchema.Codec.Decode
import WireSchema.Codec.Encode
import WireSchema.ValueJson
import WireSchema.Describe
import WireSchema.Json.Print

/-!
# Texts in, texts out

The operations of the tool on texts: a schema is read from the content of a file, and the values of
its structures are converted between hexadecimal and JSON text.

* `Schema.ofJson` and `Schema.ofYaml` read and resolve a schema document.
* `Schema.load` chooses between the two by the name of the file.
* `Schema.decodeText` shows the value of an encoding, `Schema.encodeText` encodes a value.
-/

namespace WireSchema

/-- Why an operation of the tool fails. -/
inductive ToolError where
  /-- The file cannot be read, or is no text. -/
  | file
  | schema (cause : SchemaError)
  | codec (cause : Error)
  /-- The text is not JSON. -/
  | json
  /-- The text is not hexadecimal. -/
  | invalidHex (text : String)
  | value (cause : ValueError)
deriving DecidableEq, Repr

/-- The words for the failure of an operation. -/
def ToolError.message : ToolError → String
  | file => "failed to read the file"
  | schema cause => s!"schema error: {cause.message}"
  | codec cause => s!"codec error: {cause.message}"
  | json => "json error"
  | invalidHex text => s!"invalid hex: {text}"
  | value cause => cause.message

namespace Schema

/-- The schema of a document that may have been unreadable. -/
def ofDocument? : Option Document → Except SchemaError Schema
  | some d => resolve d
  | none => .error .parse

/-- The schema of a document in JSON. -/
def ofJson (text : String) : Except SchemaError Schema := ofDocument? (Document.ofJson? text)

/-- The schema of a document in YAML. -/
def ofYaml (text : String) : Except SchemaError Schema := ofDocument? (Document.ofYaml? text)

/-- Whether the name of a file ends in `json`, set apart by a point from a part before it. -/
def isJsonPath (path : String) : Bool :=
  match path.toList.reverse with
  | 'n' :: 'o' :: 's' :: 'j' :: '.' :: c :: _ => c != '/'
  | _ => false

/-- The schema in the file of the given path and content. A file that does not exist has none. -/
def load (path : String) (content : Option Bytes) : Except ToolError Schema :=
  match content.bind fun bytes => String.fromUTF8? ⟨bytes.toArray⟩ with
  | none => .error .file
  | some text => ((if isJsonPath path then ofJson text else ofYaml text)).mapError .schema

/-- The value that is encoded as structure `name` by the bytes of a hexadecimal text, as JSON
text. -/
def decodeText (schema : Schema) (limits : Limits) (name text : String) :
    Except ToolError String := do
  match Hex.decode? text with
  | none => throw (.invalidHex text)
  | some bytes =>
    let r ← (schema.decode limits name bytes).mapError .codec
    return r.toJson.pretty

/-- The encoding of the value of structure `name` in a JSON text, as hexadecimal text. -/
def encodeText (schema : Schema) (name text : String) : Except ToolError String := do
  match Json.parse? text with
  | none => throw .json
  | some v =>
    let r ← (schema.recordOfJson name v).mapError .value
    let bytes ← (schema.encode name r).mapError .codec
    return Hex.encode bytes

end Schema

end WireSchema
