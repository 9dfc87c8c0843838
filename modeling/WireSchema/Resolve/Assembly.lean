import WireSchema.Resolve.Piece

/-!
# From the pieces to a structure

Once all the fields of a structure are known, their names are checked to be distinct, every field
that is sized by a sibling is bound to it, and the size of the whole is worked out.

Binding a field turns its size field, a plain scalar or a short blob before it, into a derived
field. A derived field cannot be bound again, so it governs one field only.
-/

namespace WireSchema

/-- The first field whose name is taken, by one of the given names or by an earlier field. -/
def firstTaken? (taken : List String) : List Field → Option Field
  | [] => none
  | f :: rest => if f.name ∈ taken then some f else firstTaken? (f.name :: taken) rest

/-- Refuses fields that share a name with each other or with a constant. -/
def checkDistinct (owner : String) (p : Piece) : Except SchemaError Unit :=
  match firstTaken? (p.constants.map (·.name)) p.fields with
  | some f => .error (.duplicateField owner f.name)
  | none => .ok ()

/-- The width of a field that is to hold a size. -/
def carrierWidth (owner : String) (f : Field) : Except SchemaError Width :=
  match f.kind with
  | .scalar width => .ok width
  | .fixedBlob size =>
    match Width.ofSize? size with
    | some width => .ok width
    | none => .error (.sizeFieldNotScalar owner f.name)
  | .derived .. => .error (.sharedSizeField owner f.name)
  | _ => .error (.sizeFieldNotScalar owner f.name)

/-- The field that holds the size of a binding, which comes before the field that is sized. -/
def sizeCarrier (owner : String) (fields : List Field) (b : Binding) :
    Except SchemaError Field :=
  match (fields.takeWhile (·.name ≠ b.content)).find? (·.name = b.sizeField) with
  | some f => .ok f
  | none =>
    if fields.any (·.name = b.sizeField) then
      .error (.sizeAfterContent owner b.content b.sizeField)
    else .error (.unknownSizeField owner b.content b.sizeField)

/-- The fields with the size field of a binding turned into a derived field. -/
def bindSize (owner : String) (fields : List Field) (b : Binding) :
    Except SchemaError (List Field) := do
  let width ← carrierWidth owner (← sizeCarrier owner fields b)
  return fields.map fun f =>
    if f.name = b.sizeField then { f with kind := .derived width b.content b.rule } else f

/-- The structure of the given name whose layout is the given one. -/
def assemble (structures : List Structure) (name : String) (p : Piece) :
    Except SchemaError Structure := do
  checkDistinct name p
  -- names are distinct from here on, so a binding by name means one field
  let fields ← p.bindings.foldlM (bindSize name) p.fields
  return {
    name := name
    fields := fields
    constants := p.constants
    fixedSize := fixedSizeOf structures fields
    minSize := minSizeOf structures fields }

end WireSchema
