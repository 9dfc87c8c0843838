import WireSchema.Yaml.Parse
import WireSchema.Document.Read

/-!
# Reading schema documents in YAML

The types of a document are the entries of a mapping. Keys and the kinds of descriptors are read by
their spelling, whatever it might stand for; all else stands for what `Yaml.scalarNode?` says.

A number stands for the last node that carries it, which may even be around the reference. What
keeps the reading finite is that collections may be nested 128 deep at most, and that references may
be followed at most a hundred times for each part of the document (`Yaml.extent`).

* `Document.ofYaml?` reads a document from a YAML text.
-/

namespace WireSchema

namespace Yaml

/-- A reading of a value, which counts down the references that may still be followed. -/
abbrev Reading (α : Type) := StateT Nat Option α

/-- How deep collections may be nested in a document. -/
def depthLimit : Nat := 128

/-- How many references of a document may be followed. -/
def referenceLimit (v : Yaml) : Nat := 100 * v.extent

/-- Whether a node has a private tag. -/
def Properties.isPrivate (p : Properties) : Bool := p.tag.any isPrivateTag

/-- The value, or the one that it is a reference to. -/
def follow (nodes : List (Nat × Yaml)) : Yaml → Reading Yaml
  | reference n => fun left =>
    match left, nodes.lookup n with
    | left + 1, some v => some (v, left)
    | _, _ => none
  | v => fun left => some (v, left)

/-- The spelling of a scalar. -/
def spelling (nodes : List (Nat × Yaml)) (v : Yaml) : Reading String := do
  match ← follow nodes v with
  | scalar _ _ text => return text
  | _ => failure

/-- The node of a value in which collections are nested at most `depth` deep. -/
def toNode (nodes : List (Nat × Yaml)) : (depth : Nat) → Yaml → Reading Node
  | 0, v => do
    match ← follow nodes v with
    | scalar p plain text => liftM (scalarNode? p.tag plain text)
    | _ => failure
  | depth + 1, v => do
    match ← follow nodes v with
    | scalar p plain text => liftM (scalarNode? p.tag plain text)
    | sequence p items =>
      if p.isPrivate then failure
      else return .sequence (← items.mapM (toNode nodes depth))
    | mapping p entries =>
      if p.isPrivate then failure
      else
        let entries ← entries.mapM fun (key, v) =>
          return (← toNode nodes depth key, ← toNode nodes depth v)
        return .mapping entries
    | reference _ => failure

/-- The node of a descriptor, whose kind is read by its spelling. -/
def descriptorNode (nodes : List (Nat × Yaml)) (depth : Nat) (v : Yaml) : Reading Node := do
  match ← follow nodes v with
  | sequence p (kind :: items) =>
    if p.isPrivate then failure
    else
      let kind ← spelling nodes kind
      return .sequence (.string kind :: (← items.mapM (toNode nodes depth)))
  | mapping p entries =>
    if p.isPrivate then failure
    else
      let entries ← entries.mapM fun (key, v) => do
        let key ← toNode nodes depth key
        if Descriptor.isTag key then return (key, .string (← spelling nodes v))
        else return (key, ← toNode nodes depth v)
      return .mapping entries
  | _ => failure

/-- The names and descriptors of the entries of a document. -/
def documentEntries (nodes : List (Nat × Yaml)) (entries : List (Yaml × Yaml)) :
    Reading (List (String × Node)) :=
  entries.mapM fun (key, v) =>
    return (← spelling nodes key, ← descriptorNode nodes (depthLimit - 2) v)

end Yaml

namespace Document

/-- The document of a YAML value: a mapping, or nothing. -/
def ofYamlValue? (v : Yaml) : Option Document := do
  match v with
  | .mapping _ entries =>
    let (entries, _) ← Yaml.documentEntries (v.anchored []) entries v.referenceLimit
    ofEntries? entries
  | .scalar _ true "" => return empty
  | _ => none

/-- The document of a YAML text. -/
def ofYaml? (text : String) : Option Document := do
  match ← Yaml.parse? text with
  | none => return empty
  | some v => ofYamlValue? v

end Document

end WireSchema
