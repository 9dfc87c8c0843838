import WireSchema.Document
import WireSchema.SchemaError
import WireSchema.Layout.Extent

/-!
# What an attribute contributes

Each attribute of a structure contributes a `Piece` to the layout: its own field or constant, or, if
it is inline, all the fields and constants of the structure that it names. A field that is sized by
a sibling also contributes a `Binding`, which is settled once all the fields are known.

* `Attribute.dependency?` is the structure that has to be laid out before the attribute.
* `Attribute.piece` is the contribution, given the structures that are laid out already.
-/

namespace WireSchema

/-- A field that waits for the sibling that holds its size. -/
structure Binding where
  /-- The field that is sized. -/
  content : String
  /-- The sibling that holds the size. -/
  sizeField : String
  rule : Derivation
deriving DecidableEq, Repr

/-- A part of a layout. -/
structure Piece where
  fields : List Field := []
  constants : List Constant := []
  bindings : List Binding := []
deriving DecidableEq, Repr

namespace Piece

/-- The layout of one part after the other. -/
def append (p q : Piece) : Piece :=
  ⟨p.fields ++ q.fields, p.constants ++ q.constants, p.bindings ++ q.bindings⟩

instance : Append Piece := ⟨append⟩

@[simp] theorem fields_append (p q : Piece) : (p ++ q).fields = p.fields ++ q.fields := rfl

@[simp] theorem constants_append (p q : Piece) :
    (p ++ q).constants = p.constants ++ q.constants := rfl

@[simp] theorem bindings_append (p q : Piece) : (p ++ q).bindings = p.bindings ++ q.bindings := rfl

end Piece

/-- The name of the built-in type of raw bytes. -/
def rawBytes : String := "byte"

/-- The width of a scalar of `size` bytes. -/
def scalarWidth (type : String) (size : UInt64) : Except SchemaError Width :=
  match Width.ofSize? size.toNat with
  | some width => .ok width
  | none => .error (.invalidWidth type size.toNat)

/-- A run of bytes: a scalar if it has a signedness, a blob otherwise. -/
def byteRun (type : String) (size : UInt64) : Option Signedness → Except SchemaError Element
  | some .signed => .error (.signed type)
  | some .unsigned => return .scalar (← scalarWidth type size)
  | none => return .blob size.toNat

/-- Refuses a number that does not fit the width. -/
def checkValue (type name : String) (width : Width) (value : UInt64) : Except SchemaError Unit :=
  if value.toNat ≤ width.maxValue then .ok ()
  else .error (.valueOverflow type name value.toNat)

namespace Attribute

/-- The name of the attribute, which it must have. -/
def requiredName (owner : String) (a : Attribute) : Except SchemaError String :=
  match a.name with
  | some name => .ok name
  | none => .error (.missingName owner a.type)

/-- The descriptor of the type of the attribute, which must be declared. -/
def declared (d : Document) (owner : String) (a : Attribute) : Except SchemaError Descriptor :=
  match d.get? a.type with
  | some descriptor => .ok descriptor
  | none => .error (.unknownType owner (a.name.getD "") a.type)

/-- The structure, with its layout, that has to be laid out before the attribute: the one that it
puts inline, or the type of a field. -/
def dependency? (d : Document) (a : Attribute) : Option (String × List Attribute) :=
  let struct := (d.layout? a.type).map (a.type, ·)
  match a.disposition with
  | some .inline => struct
  | some .const => none
  | none => if a.name.isSome && a.type != rawBytes then struct else none

/-- The width of a constant. -/
def constantWidth (d : Document) (owner name : String) (a : Attribute) :
    Except SchemaError Width := do
  if a.type = rawBytes then
    match a.size with
    | some (.fixed size) => scalarWidth a.type size
    | _ => throw (.missingSize owner name)
  else
    match ← a.declared d owner with
    | .byte size _ => scalarWidth a.type size
    | .enum size _ => scalarWidth a.type size
    | .struct _ => throw (.sizeFieldNotScalar owner name)

/-- The constant that the attribute declares. -/
def constant (d : Document) (owner : String) (a : Attribute) : Except SchemaError Constant := do
  let name ← a.requiredName owner
  match a.value with
  | none => throw (.missingValue owner name)
  | some value =>
    let width ← a.constantWidth d owner name
    checkValue a.type name width value
    return ⟨name, width, value⟩

/-- The field of raw bytes that the attribute declares. -/
def rawField (owner name : String) (a : Attribute) : Except SchemaError Piece :=
  match a.size, a.sizing with
  | none, _ => .error (.missingSize owner name)
  | some _, some _ => .error (.invalidSizing owner name)
  | some (.fixed size), none => do
    let run ← byteRun a.type size a.signedness
    return { fields := [⟨name, run.single⟩] }
  | some (.field sizeField), none =>
    .ok {
      fields := [⟨name, .variableBlob sizeField⟩]
      bindings := [⟨name, sizeField, .byteLength⟩] }

/-- What the named type is as an item. -/
def element (a : Attribute) : Descriptor → Except SchemaError Element
  | .byte size signedness => byteRun a.type size signedness
  | .enum size _ => return .scalar (← scalarWidth a.type size)
  | .struct _ => return .struct a.type

/-- A group of items, which must not be empty. -/
def groupPiece (structures : List Structure) (owner name : String) (item : Element)
    (cardinality : Cardinality) (bindings : List Binding) : Except SchemaError Piece :=
  if item.minSize structures = 0 then .error (.zeroSizedElement owner name)
  else .ok { fields := [⟨name, .repeated item cardinality⟩], bindings := bindings }

/-- The field of a named type that the attribute declares. -/
def typedField (d : Document) (structures : List Structure) (owner name : String) (a : Attribute) :
    Except SchemaError Piece := do
  let item ← a.element (← a.declared d owner)
  match a.size, a.sizing with
  | none, none => return { fields := [⟨name, item.single⟩] }
  | none, some _ => throw (.invalidSizing owner name)
  | some (.fixed _), some _ => throw (.invalidSizing owner name)
  | some (.fixed count), none => groupPiece structures owner name item (.fixed count.toNat) []
  | some (.field sizeField), some .bytes =>
    groupPiece structures owner name item (.budgeted sizeField) [⟨name, sizeField, .groupSize⟩]
  | some (.field sizeField), _ =>
    groupPiece structures owner name item (.counted sizeField) [⟨name, sizeField, .itemCount⟩]

/-- What the attribute contributes to the layout of the structure `owner`. -/
def piece (d : Document) (structures : List Structure) (owner : String) (a : Attribute) :
    Except SchemaError Piece :=
  match a.disposition with
  | some .inline => do
    let _ ← a.declared d owner
    match findStructure? structures a.type with
    | some s => return { fields := s.fields, constants := s.constants }
    | none => throw (.notStructure a.type)
  | some .const => do return { constants := [← a.constant d owner] }
  | none => do
    let name ← a.requiredName owner
    if a.type = rawBytes then a.rawField owner name else a.typedField d structures owner name

end Attribute

end WireSchema
