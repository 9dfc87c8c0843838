import WireSchema.Resolve.Assembly

/-!
# Resolving a document

Resolution turns a document into a schema, or refuses it. The types are taken in the order of their
names. A structure is laid out after the structures that its attributes depend on, each of which is
laid out once; a structure that turns out to depend on itself is refused, with the path that leads
back to it.

* `visit` lays out one structure and all that it depends on.
* `Schema.resolve` resolves a whole document.
-/

namespace WireSchema

/-- The part of a path, whose latest name comes first, that leads from `name` back to it. -/
def cyclePath (path : List String) (name : String) : List String :=
  name :: (path.takeWhile (· ≠ name)).reverse ++ [name]

/-- The layout of the given attributes, each after the structure that it depends on, and the list of
structures with those that had to be laid out for it. -/
def layAttributes
    (visit : String → List Attribute → List Structure → Except SchemaError (List Structure))
    (d : Document) (owner : String) :
    List Attribute → List Structure → Except SchemaError (List Structure × Piece)
  | [], structures => .ok (structures, {})
  | a :: rest, structures => do
    let structures ←
      match a.dependency? d with
      | some (type, layout) => visit type layout structures
      | none => .ok structures
    let first ← a.piece d structures owner
    let (structures, others) ← layAttributes visit d owner rest structures
    return (structures, first ++ others)

/-- The list of structures with the structure `name` and all that it depends on. The path holds the
structures that wait for this one, the latest first; as they are all declared and distinct, there
is `room` for as many more as there are other declared types. -/
def visit (d : Document) :
    (room : Nat) → (path : List String) → String → List Attribute → List Structure →
      Except SchemaError (List Structure)
  | room, path, name, layout, structures =>
    if (findStructure? structures name).isSome then .ok structures
    else if name ∈ path then .error (.cycle (cyclePath path name))
    else
      match room with
      -- out of reach: a path of distinct declared names leaves room for one more
      | 0 => .error (.cycle (cyclePath path name))
      | room + 1 => do
        let (structures, p) ← layAttributes (visit d room (name :: path)) d name layout structures
        return (← assemble structures name p) :: structures

namespace Schema

/-- The schema with one more type of the document. -/
def addType (d : Document) (schema : Schema) (name : String) :
    Descriptor → Except SchemaError Schema
  | .struct layout => do
    return { schema with
      structures := ← visit d d.types.length [] name layout schema.structures }
  | .enum size labels => do
    let width ← scalarWidth name size
    labels.forM fun label => checkValue name label.name width label.value
    return { schema with enumerations := schema.enumerations ++ [⟨name, width, labels⟩] }
  | .byte size signedness => do
    let _ ← byteRun name size signedness
    return schema

/-- The schema of a document. -/
def resolve (d : Document) : Except SchemaError Schema :=
  d.types.foldlM (fun schema (name, descriptor) => addType d schema name descriptor) empty

end Schema

end WireSchema
