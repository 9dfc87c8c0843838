/-!
# Why a schema is refused

`SchemaError` names every fault for which a schema document is refused, and `SchemaError.message`
puts it into words.
-/

namespace WireSchema

/-- A fault of a schema document. -/
inductive SchemaError where
  /-- The text is not a schema document. -/
  | parse
  /-- An attribute names a type that is not declared. -/
  | unknownType (owner field type : String)
  /-- A type that is put inline is not a structure. -/
  | notStructure (type : String)
  /-- A scalar takes another number of bytes than one, two, four or eight. -/
  | invalidWidth (type : String) (width : Nat)
  /-- A scalar is signed. -/
  | signed (type : String)
  /-- A number does not fit its type. -/
  | valueOverflow (type name : String) (value : Nat)
  | missingName (owner type : String)
  | missingSize (owner field : String)
  | missingValue (owner field : String)
  /-- A field has the name of another field or of a constant. -/
  | duplicateField (owner field : String)
  /-- The field that holds the size of a field does not exist. -/
  | unknownSizeField (owner field sizeField : String)
  /-- The field that holds a size cannot hold a number. -/
  | sizeFieldNotScalar (owner sizeField : String)
  /-- The field that holds a size holds that of another field as well. -/
  | sharedSizeField (owner sizeField : String)
  /-- The field that holds a size comes after the field that it sizes. -/
  | sizeAfterContent (owner field sizeField : String)
  /-- A sizing stands where no sibling field sizes a group. -/
  | invalidSizing (owner field : String)
  /-- The items of a group may take no byte. -/
  | zeroSizedElement (owner field : String)
  /-- A structure contains itself, along the given path. -/
  | cycle (path : List String)
deriving DecidableEq, Repr

/-- The words for a fault of a schema. -/
def SchemaError.message : SchemaError → String
  | parse => "parse failed"
  | unknownType owner field type => s!"unknown type: {owner}.{field} references {type}"
  | notStructure type => s!"not a structure: {type}"
  | invalidWidth type width => s!"invalid scalar width: {type} is {width} bytes"
  | signed type => s!"signed scalars are not supported: {type}"
  | valueOverflow type name value => s!"value out of range: {type}.{name} = {value}"
  | missingName owner type => s!"missing name: attribute of type {type} in {owner}"
  | missingSize owner field => s!"missing size: {owner}.{field}"
  | missingValue owner field => s!"missing value: {owner}.{field}"
  | duplicateField owner field => s!"duplicate field: {owner}.{field}"
  | unknownSizeField owner field sizeField =>
    s!"unknown size field: {owner}.{field} is sized by {sizeField}"
  | sizeFieldNotScalar owner sizeField => s!"size field is not a scalar: {owner}.{sizeField}"
  | sharedSizeField owner sizeField =>
    s!"size field governs multiple fields: {owner}.{sizeField}"
  | sizeAfterContent owner field sizeField =>
    s!"size field declared after content: {owner}.{sizeField} sizes {field}"
  | invalidSizing owner field =>
    s!"invalid sizing: {owner}.{field} is not a sibling-bound group"
  | zeroSizedElement owner field => s!"group of zero-sized elements: {owner}.{field}"
  | cycle path => "cyclic embedding: " ++ String.intercalate " -> " path

end WireSchema
