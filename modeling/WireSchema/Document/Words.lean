import WireSchema.Document

/-!
# The words of schema documents

The lowercase words for the parts of a document that are one of a few alternatives, and the names of
the fields of its parts, in the order in which they are written.
-/

namespace WireSchema

/-- The words for signedness. -/
def Signedness.words : List (String × Signedness) :=
  [("unsigned", .unsigned), ("signed", .signed)]

/-- The word for a signedness. -/
def Signedness.word : Signedness → String
  | unsigned => "unsigned"
  | signed => "signed"

/-- The words for sizing. -/
def Sizing.words : List (String × Sizing) := [("count", .count), ("bytes", .bytes)]

/-- The word for a sizing. -/
def Sizing.word : Sizing → String
  | count => "count"
  | bytes => "bytes"

/-- The words for disposition. -/
def Disposition.words : List (String × Disposition) := [("inline", .inline), ("const", .const)]

/-- The word for a disposition. -/
def Disposition.word : Disposition → String
  | inline => "inline"
  | const => "const"

/-- The kinds of descriptor. -/
inductive DescriptorTag where
  | byte
  | enum
  | struct
deriving DecidableEq, Repr

/-- The words for the kinds of descriptor. -/
def DescriptorTag.words : List (String × DescriptorTag) :=
  [("byte", .byte), ("enum", .enum), ("struct", .struct)]

/-- The word for a kind of descriptor. -/
def DescriptorTag.word : DescriptorTag → String
  | byte => "byte"
  | enum => "enum"
  | struct => "struct"

/-- The key of the kind of a descriptor. -/
def tagKey : String := "type"

/-- The fields of a descriptor of the given kind, beside the kind. -/
def DescriptorTag.fieldNames : DescriptorTag → List String
  | byte => ["size", "signedness"]
  | enum => ["size", "values"]
  | struct => ["layout"]

/-- The fields of an attribute. -/
def Attribute.fieldNames : List String :=
  ["name", "type", "size", "sizing", "disposition", "value", "signedness"]

/-- The fields of a label. -/
def Label.fieldNames : List String := ["name", "value"]

@[simp] theorem Signedness.lookup_word (s : Signedness) : words.lookup s.word = some s := by
  cases s <;> decide

@[simp] theorem Sizing.lookup_word (s : Sizing) : words.lookup s.word = some s := by
  cases s <;> decide

@[simp] theorem Disposition.lookup_word (d : Disposition) : words.lookup d.word = some d := by
  cases d <;> decide

@[simp] theorem DescriptorTag.lookup_word (t : DescriptorTag) : words.lookup t.word = some t := by
  cases t <;> decide

end WireSchema
