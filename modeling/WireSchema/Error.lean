import WireSchema.Value

/-!
# What can go wrong on the wire

`Error` names every cause for which reading or writing a structure fails, and `Error.message` is the
one place where a cause is put into words. A `Malformation` is a value or an input that does not
have the shape its layout demands. An `Abort` is a fault that no input should be able to cause: a
size past the machine's range, or an encoding that is not as long as it was measured to be.
-/

namespace WireSchema

/-- A value or an input that is not of the shape of its layout. -/
inductive Malformation where
  /-- No structure has this name. -/
  | unknownStructure (name : String)
  /-- The structure `owner` has no such field. -/
  | unknownField (owner field : String)
  /-- A field that was taken for a size or a count is content. -/
  | notDerived (owner field : String)
  /-- A constant cannot be assigned. -/
  | isConstant (owner field : String)
  /-- A size or a count cannot be assigned. -/
  | isDerived (owner field : String)
  /-- The field does not hold content of this kind. -/
  | cannotHold (owner field : String) (kind : ValueKind)
  /-- A group of fixed length holds another number of items. -/
  | itemCount (owner field : String) (found expected : Nat)
  /-- The size or count of a field was not read before the field. -/
  | notDecoded (owner field : String)
  /-- An item of a group that is measured in items took no byte. -/
  | emptyCountedItem
  /-- An item of a group that is measured in bytes took no byte. -/
  | emptyBudgetedItem
  /-- The last item of a group that is measured in bytes ended past the group. -/
  | overshoot (consumed budget : Nat)
deriving DecidableEq, Repr

/-- A fault beyond the reach of the wire format. -/
inductive Abort where
  /-- A size is 2^64 or more. -/
  | sizeOverflow
  /-- A buffer of 2^63 bytes or more is asked for. -/
  | bufferTooLarge
  /-- An encoding is not as long as it was measured to be. -/
  | sizeMismatch
deriving DecidableEq, Repr

/-- Why reading or writing fails. -/
inductive Error where
  /-- More bytes are asked for than are left. -/
  | outOfRange (requested remaining : Nat)
  | malformed (cause : Malformation)
  /-- The structure ends before the input does. -/
  | trailingData (remaining : Nat)
  /-- A number does not fit the width of its field. -/
  | overflow (value width : Nat)
  /-- A byte string is longer than its field. -/
  | tooLarge (length width : Nat)
  /-- A group or a blob is larger than the reader allows. -/
  | lengthExceeded (found limit : Nat)
  | abort (cause : Abort)
deriving DecidableEq, Repr

/-- The words for a malformation. -/
def Malformation.message : Malformation → String
  | unknownStructure name => s!"unknown structure: {name}"
  | unknownField owner field => s!"unknown field: {owner}.{field}"
  | notDerived owner field => s!"{owner}.{field} is not derived"
  | isConstant owner field => s!"{owner}.{field} is a constant"
  | isDerived owner field => s!"{owner}.{field} is derived"
  | cannotHold owner field kind => s!"{owner}.{field} cannot hold {kind.text}"
  | itemCount owner field found expected =>
    s!"{owner}.{field} holds {found} items, expected {expected}"
  | notDecoded owner field => s!"{owner}.{field} was not decoded before its content"
  | emptyCountedItem => "zero-sized item in count-governed group"
  | emptyBudgetedItem => "zero-sized item in byte-bounded group"
  | overshoot consumed budget =>
    s!"group overshot its budget: consumed {consumed} of {budget} bytes"

/-- The words for an abort. -/
def Abort.message : Abort → String
  | sizeOverflow => "the size of an encoding is out of range"
  | bufferTooLarge => "a buffer is too large"
  | sizeMismatch => "an encoding does not have its measured size"

/-- The words for an error. -/
def Error.message : Error → String
  | outOfRange requested remaining =>
    s!"out of range: requested {requested} bytes, {remaining} remaining"
  | malformed cause => s!"malformed: {cause.message}"
  | trailingData remaining => s!"trailing data: {remaining} bytes"
  | overflow value width => s!"overflow: {value} does not fit in {width} bytes"
  | tooLarge length width => s!"too large: {length} bytes do not fit in {width} bytes"
  | lengthExceeded found limit => s!"length exceeded: {found} > {limit}"
  | abort cause => cause.message

end WireSchema
