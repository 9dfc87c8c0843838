import WireSchema.Layout
import WireSchema.Value
import WireSchema.Json
import WireSchema.Text.Hex

/-!
# Values as JSON

A value is shown as JSON in the obvious way: a number as a number, bytes as hexadecimal text, a
nested structure as an object and a group as an array. Sizes and counts do not occur, as they are no
part of a value.

In the other direction the layout decides what is expected where (`Schema.recordOfJson`). A key that
is no content field is refused, while a content field may be left out; the fields of the result
stand in wire order.
-/

namespace WireSchema

namespace Value

mutual

/-- The JSON of a value. -/
def toJson : Value → Json
  | uint n => .uint n
  | bytes data => .string (Hex.encode data)
  | record fields => .object (membersOf fields)
  | list items => .array (itemsOf items)

/-- The members of the JSON object of a structure. -/
def membersOf : List (String × Value) → List (String × Json)
  | [] => []
  | (name, v) :: rest => (name, toJson v) :: membersOf rest

/-- The items of the JSON array of a group. -/
def itemsOf : List Value → List Json
  | [] => []
  | v :: rest => toJson v :: itemsOf rest

end

end Value

/-- The JSON object of a structure. -/
def Record.toJson (r : Record) : Json := .object (Value.membersOf r)

/-- What is expected in the place of a JSON value. -/
inductive Expected where
  | object
  | uint
  | hex
  | array
  | uintArray
deriving DecidableEq, Repr

/-- The words for what is expected. -/
def Expected.text : Expected → String
  | object => "an object"
  | uint => "an unsigned integer"
  | hex => "a hex string"
  | array => "an array"
  | uintArray => "an array of unsigned integers"

/-- Why a JSON value is no value of a structure. -/
inductive ValueError where
  | unknownStructure (name : String)
  | unknownField (owner field : String)
  /-- A size or a count is given. -/
  | derivedField (owner field : String)
  /-- The value of a field is not of the expected form; the whole value has no field name. -/
  | invalidValue (owner field : String) (expected : Expected)
deriving DecidableEq, Repr

/-- The words for the fault of a JSON value. -/
def ValueError.message : ValueError → String
  | unknownStructure name => s!"unknown structure: {name}"
  | unknownField owner field => s!"unknown field: {owner}.{field}"
  | derivedField owner field => s!"derived field cannot be set: {owner}.{field}"
  | invalidValue owner field expected =>
    s!"invalid value: {owner}.{field} expects {expected.text}"

namespace OfJson

/-- Refuses a key that is no content field. -/
def checkKey (owner : Structure) (key : String) : Except ValueError Unit :=
  match owner.field? key with
  | none => .error (.unknownField owner.name key)
  | some f => if f.isContent then .ok () else .error (.derivedField owner.name key)

/-- A result that must be there for the value to be of the expected form. -/
def expect {α : Type} (owner : Structure) (f : Field) (expected : Expected) :
    Option α → Except ValueError α
  | some a => .ok a
  | none => .error (.invalidValue owner.name f.name expected)

/-- The number of a JSON value. -/
def uint (owner : Structure) (f : Field) (expected : Expected) (v : Json) :
    Except ValueError Value := do
  return .uint (← expect owner f expected v.asUInt?)

/-- The bytes of a JSON value. -/
def blob (owner : Structure) (f : Field) (v : Json) : Except ValueError Value := do
  return .bytes (← expect owner f .hex (v.asString?.bind Hex.decode?))

/-- The item of a group. -/
def item (nested : String → Json → Except ValueError Record) (owner : Structure) (f : Field)
    (v : Json) : Element → Except ValueError Value
  | .struct type => do return .record (← nested type v)
  | .scalar _ => uint owner f .uintArray v
  | .blob _ => blob owner f v

/-- The content of a field, nothing if the field is derived. -/
def content (nested : String → Json → Except ValueError Record) (owner : Structure) (f : Field)
    (v : Json) : Except ValueError (Option Value) :=
  match f.kind with
  | .scalar _ => do return some (← uint owner f .uint v)
  | .fixedBlob _ => do return some (← blob owner f v)
  | .variableBlob _ => do return some (← blob owner f v)
  | .embedded type => do return some (.record (← nested type v))
  | .repeated element _ =>
    match v with
    | .array items => do return some (.list (← items.mapM (item nested owner f · element)))
    | _ => .error (.invalidValue owner.name f.name .array)
  | .derived .. => .ok none

/-- The fields that are among the members of an object, in the order of the fields. -/
def fields (nested : String → Json → Except ValueError Record) (owner : Structure)
    (members : List (String × Json)) : List Field → Except ValueError Record
  | [] => .ok []
  | f :: rest => do
    let first ←
      match Json.member? members f.name with
      | none => pure none
      | some v => content nested owner f v
    let others ← fields nested owner members rest
    match first with
    | none => return others
    | some v => return (f.name, v) :: others

/-- The record of a JSON value, given those of the nested structures. -/
def record (nested : String → Json → Except ValueError Record) (s : Structure) (v : Json) :
    Except ValueError Record :=
  match v with
  | .object members => do
    members.forM fun (key, _) => checkKey s key
    fields nested s members s.fields
  | _ => .error (.invalidValue s.name "" .object)

end OfJson

/-- The value of structure `name` that a JSON value shows. -/
def Schema.recordOfJson (schema : Schema) (name : String) : Json → Except ValueError Record :=
  interpret (fun name _ => .error (.unknownStructure name)) OfJson.record schema.structures name

end WireSchema
