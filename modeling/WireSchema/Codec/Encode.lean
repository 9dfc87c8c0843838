import WireSchema.Layout
import WireSchema.Scalar

/-!
# Writing structures

A structure is written in two passes: its encoding is measured, and then written field by field in
wire order. A content field that a value lacks is written as zero, as an empty blob or group, or as
an empty nested structure. A derived field is computed anew from the field that it describes,
whatever the value may hold under its name.

* `Encoder` gathers what can be done with the values of one structure, and `Schema.encoder` builds
  it from the encoders of the structures that it refers to.
* `Schema.encode`, `Schema.write`, `Schema.encodedSize`, `Schema.derived` and `Schema.set` are the
  operations on a structure by name.
-/

namespace WireSchema

/-- What can be done with the values of one structure. -/
structure Encoder where
  /-- The length of the encoding. -/
  size : Record → Except Error Nat
  /-- The encoding. -/
  write : Record → Except Error Bytes
  /-- The number that a derived field holds in the encoding. -/
  derived : Record → String → Except Error Nat
  /-- Whether a field may be assigned some content. -/
  check : String → Value → Except Error Unit

namespace Encode

/-- The failure of a field that does not hold such content. -/
def mismatch {α : Type} (owner : Structure) (f : Field) (content : Value) : Except Error α :=
  .error (.malformed (.cannotHold owner.name f.name content.kind))

/-- The field of the given name. -/
def field (owner : Structure) (name : String) : Except Error Field :=
  match owner.field? name with
  | some f => .ok f
  | none => .error (.malformed (.unknownField owner.name name))

/-! ### The content of a field, where an absent one stands for the empty one -/

/-- The number in a scalar field. -/
def scalarContent (owner : Structure) (f : Field) : Option Value → Except Error UInt64
  | none => .ok 0
  | some (.uint n) => .ok n
  | some other => mismatch owner f other

/-- The bytes in a blob field. -/
def bytesContent (owner : Structure) (f : Field) : Option Value → Except Error Bytes
  | none => .ok []
  | some (.bytes data) => .ok data
  | some other => mismatch owner f other

/-- The nested structure in a field. -/
def recordContent (owner : Structure) (f : Field) : Option Value → Except Error Record
  | none => .ok []
  | some (.record r) => .ok r
  | some other => mismatch owner f other

/-- The items in a group. -/
def listContent (owner : Structure) (f : Field) : Option Value → Except Error (List Value)
  | none => .ok []
  | some (.list items) => .ok items
  | some other => mismatch owner f other

/-- Refuses a group of fixed length with another number of items. -/
def checkCount (owner : Structure) (f : Field) (cardinality : Cardinality) (items : List Value) :
    Except Error Unit :=
  match cardinality with
  | .fixed count =>
    if items.length = count then .ok ()
    else .error (.malformed (.itemCount owner.name f.name items.length count))
  | _ => .ok ()

/-! ### Measuring -/

/-- The length of an item of a group. -/
def itemSize (nested : String → Encoder) (owner : Structure) (f : Field) (item : Element)
    (content : Value) : Except Error Nat :=
  match item, content with
  | .struct type, .record r => (nested type).size r
  | .scalar width, .uint _ => .ok width.bytes
  | .blob size, .bytes _ => .ok size
  | _, other => mismatch owner f other

/-- The length of a field with the given content. -/
def fieldSize (nested : String → Encoder) (owner : Structure) (f : Field)
    (content : Option Value) : Except Error Nat :=
  match f.kind with
  | .scalar width => .ok width.bytes
  | .derived width _ _ => .ok width.bytes
  | .fixedBlob size => .ok size
  | .variableBlob _ => do return (← bytesContent owner f content).length
  | .embedded type => do (nested type).size (← recordContent owner f content)
  | .repeated item _ => do
    addSizes (itemSize nested owner f item) 0 (← listContent owner f content)

/-- The length of a structure. One that is the same for all values is not measured. -/
def size (nested : String → Encoder) (s : Structure) (r : Record) : Except Error Nat :=
  match s.fixedSize with
  | some n => .ok n
  | none => addSizes (fun f => fieldSize nested s f (r.get? f.name)) 0 s.fields

/-- The number that describes the field `content`. -/
def derive (nested : String → Encoder) (s : Structure) (r : Record) (content : String) :
    Derivation → Except Error Nat
  | .byteLength => do
    return (← bytesContent s (← field s content) (r.get? content)).length
  | .itemCount => do
    return (← listContent s (← field s content) (r.get? content)).length
  | .groupSize => do
    fieldSize nested s (← field s content) (r.get? content)

/-- The number that the derived field `name` holds. -/
def derived (nested : String → Encoder) (s : Structure) (r : Record) (name : String) :
    Except Error Nat := do
  match (← field s name).kind with
  | .derived _ content rule => derive nested s r content rule
  | _ => throw (.malformed (.notDerived s.name name))

/-! ### Writing -/

/-- The bytes of an item of a group. -/
def item (nested : String → Encoder) (owner : Structure) (f : Field) (item : Element)
    (content : Value) : Except Error Bytes :=
  match item, content with
  | .struct type, .record r => (nested type).write r
  | .scalar width, .uint n => width.encode n.toNat
  | .blob size, .bytes data => fit data size
  | _, other => mismatch owner f other

/-- The bytes of a field of a value. -/
def fieldBytes (nested : String → Encoder) (s : Structure) (r : Record) (f : Field) :
    Except Error Bytes := do
  let content := r.get? f.name
  match f.kind with
  | .scalar width => width.encode (← scalarContent s f content).toNat
  | .fixedBlob size => fit (← bytesContent s f content) size
  | .variableBlob _ => bytesContent s f content
  | .embedded type => (nested type).write (← recordContent s f content)
  | .repeated element cardinality =>
    let items ← listContent s f content
    checkCount s f cardinality items
    return (← items.mapM (item nested s f element)).flatten
  | .derived width content rule => width.encode (← derive nested s r content rule)

/-- The bytes of a structure: those of its fields, one after the other. -/
def write (nested : String → Encoder) (s : Structure) (r : Record) : Except Error Bytes := do
  return (← s.fields.mapM (fieldBytes nested s r)).flatten

/-! ### Checking -/

/-- Refuses a nested structure with a field that may not hold its content. -/
def checkRecord (check : String → Value → Except Error Unit) (r : Record) : Except Error Unit :=
  r.forM fun (name, content) => check name content

/-- Refuses an item that a group may not hold. -/
def checkItem (nested : String → Encoder) (owner : Structure) (f : Field) (item : Element)
    (content : Value) : Except Error Unit :=
  match item, content with
  | .struct type, .record r => checkRecord (nested type).check r
  | .scalar width, .uint n => width.check n.toNat
  | .blob size, .bytes data => checkLength size data
  | _, other => mismatch owner f other

/-- Refuses to assign a constant, a derived field or an unknown one, and content that the field may
not hold. -/
def check (nested : String → Encoder) (s : Structure) (name : String) (content : Value) :
    Except Error Unit := do
  if (s.constant? name).isSome then throw (.malformed (.isConstant s.name name))
  let f ← field s name
  match f.kind, content with
  | .derived .., _ => throw (.malformed (.isDerived s.name name))
  | .scalar width, .uint n => width.check n.toNat
  | .fixedBlob size, .bytes data => checkLength size data
  | .variableBlob _, .bytes _ => return
  | .embedded type, .record r => checkRecord (nested type).check r
  | .repeated item cardinality, .list items =>
    checkCount s f cardinality items
    items.forM (checkItem nested s f item)
  | _, other => mismatch s f other

/-- The encoder of a structure, given those of the structures that it refers to. -/
def encoder (nested : String → Encoder) (s : Structure) : Encoder where
  size := size nested s
  write := write nested s
  derived := derived nested s
  check := check nested s

end Encode

/-- The encoder of a structure that does not exist. -/
def Encoder.unknown (name : String) : Encoder where
  size _ := .error (.malformed (.unknownStructure name))
  write _ := .error (.malformed (.unknownStructure name))
  derived _ _ := .error (.malformed (.unknownStructure name))
  check _ _ := .error (.malformed (.unknownStructure name))

namespace Schema

/-- The encoder of the structure `name`. -/
def encoder (schema : Schema) (name : String) : Encoder :=
  interpret Encoder.unknown Encode.encoder schema.structures name

/-- The length of the encoding of a value as structure `name`. -/
def encodedSize (schema : Schema) (name : String) (r : Record) : Except Error Nat :=
  (schema.encoder name).size r

/-- The bytes of a value as structure `name`, in a single pass. -/
def write (schema : Schema) (name : String) (r : Record) : Except Error Bytes :=
  (schema.encoder name).write r

/-- The encoding of a value as structure `name`, measured before it is written. -/
def encode (schema : Schema) (name : String) (r : Record) : Except Error Bytes := do
  let size ← schema.encodedSize name r
  checkBuffer size
  checkMeasured size (← schema.write name r)

/-- The number that the derived field `field` of a value holds in its encoding. -/
def derived (schema : Schema) (name : String) (r : Record) (field : String) : Except Error Nat :=
  (schema.encoder name).derived r field

/-- The value with the content field `field` assigned, if the layout allows it. -/
def set (schema : Schema) (name : String) (r : Record) (field : String) (content : Value) :
    Except Error Record := do
  (schema.encoder name).check field content
  return r.insert field content

end Schema

end WireSchema
