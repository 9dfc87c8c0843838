import WireSchema.Json

/-!
# Trees of keys and values

A schema document can be written in two notations. `Node` is what they have in common: scalars,
sequences, and mappings whose keys are nodes themselves.

A part of a document with named fields is a mapping or, without the names, a sequence of the values
in the order of the fields. `Node.fields?` reads both.
-/

namespace WireSchema

/-- A tree of keys and values. -/
inductive Node where
  | null
  | bool (b : Bool)
  | uint (n : UInt64)
  /-- A zero with a minus sign, which is the number zero but no place among fields or words. -/
  | negativeZero
  /-- A number that is not an unsigned machine word. -/
  | number
  | string (text : String)
  | sequence (items : List Node)
  | mapping (entries : List (Node × Node))
deriving Inhabited

namespace Node

mutual

/-- The tree of a JSON value. -/
def ofJson : Json → Node
  | .null => null
  | .bool b => bool b
  | .uint n => uint n
  | .number _ => number
  | .string text => string text
  | .array items => sequence (ofItems items)
  | .object members => mapping (ofMembers members)

/-- The trees of the items of an array. -/
def ofItems : List Json → List Node
  | [] => []
  | v :: rest => ofJson v :: ofItems rest

/-- The entries of the members of an object. -/
def ofMembers : List (String × Json) → List (Node × Node)
  | [] => []
  | (name, v) :: rest => (string name, ofJson v) :: ofMembers rest

end

/-- The number, if the node is one that fits a machine word. -/
def asUInt? : Node → Option UInt64
  | uint n => some n
  | negativeZero => some 0
  | _ => none

/-- The text, if the node is a string. -/
def asString? : Node → Option String
  | string text => some text
  | _ => none

/-- The items, if the node is a sequence. -/
def asSequence? : Node → Option (List Node)
  | sequence items => some items
  | _ => none

/-- Whether a node can be a key of a mapping with named fields. -/
def isKey : Node → Bool
  | string _ => true
  | uint _ => true
  | _ => false

/-- Whether a key names the field `name`, which is at the place `index` among the fields. -/
def names (name : String) (index : Nat) : Node → Bool
  | string text => text == name
  | uint n => n.toNat == index
  | _ => false

/-- The value of the field `name` in a mapping, if there is one; no field may be given twice. -/
def field? (entries : List (Node × Node)) (name : String) (index : Nat) : Option (Option Node) :=
  match entries.filter fun (key, _) => key.names name index with
  | [] => some none
  | [(_, v)] => some (some v)
  | _ => none

/-- The values of the fields of the given names in a mapping. Other keys are passed over. -/
def mappingFields? (fieldNames : List String) (entries : List (Node × Node)) :
    Option (List (Option Node)) :=
  if entries.all fun (key, _) => key.isKey then
    fieldNames.zipIdx.mapM fun (name, index) => field? entries name index
  else none

/-- The values of the fields in a sequence, which may be shorter than the fields. -/
def sequenceFields? (fieldNames : List String) (items : List Node) : Option (List (Option Node)) :=
  if items.length ≤ fieldNames.length then
    some (items.map some ++ List.replicate (fieldNames.length - items.length) none)
  else none

/-- The values of the fields of the given names, in the order of the names. -/
def fields? (fieldNames : List String) : Node → Option (List (Option Node))
  | mapping entries => mappingFields? fieldNames entries
  | sequence items => sequenceFields? fieldNames items
  | _ => none

/-- A field that may be absent or null. -/
def optional {α : Type} (read : Node → Option α) : Option Node → Option (Option α)
  | none => some none
  | some null => some none
  | some node => (read node).map some

/-- One of some words: the word itself, or a mapping of the word to nothing, in which the place
among the words may stand for the word. -/
def word? {α : Type} (words : List (String × α)) : Node → Option α
  | string text => words.lookup text
  | mapping [(string text, null)] => words.lookup text
  | mapping [(string text, mapping [])] => words.lookup text
  | mapping [(uint n, null)] => words[n.toNat]?.map Prod.snd
  | mapping [(uint n, mapping [])] => words[n.toNat]?.map Prod.snd
  | _ => none

end Node

end WireSchema
