/-!
# YAML trees

`Yaml` is a YAML document without its layout. A scalar keeps its spelling, and whether it was plain
or quoted; what it stands for is a question for the reader of the tree. Nodes that are referred to
elsewhere carry a number, and a reference is the number of the node that it stands for.
-/

namespace WireSchema

namespace Yaml

/-- What is written before a node. -/
structure Properties where
  /-- The number by which references to the node know it. -/
  anchor : Option Nat
  /-- What kind of node the author says it is. -/
  tag : Option String
deriving DecidableEq, Repr

/-- Nothing is written before a node. -/
def Properties.absent : Properties := ⟨none, none⟩

end Yaml

/-- A YAML value. -/
inductive Yaml where
  | reference (number : Nat)
  | scalar (properties : Yaml.Properties) (plain : Bool) (text : String)
  | sequence (properties : Yaml.Properties) (items : List Yaml)
  | mapping (properties : Yaml.Properties) (entries : List (Yaml × Yaml))

namespace Yaml

/-- The value that nothing is written for. -/
def missing : Yaml := .scalar .absent true ""

instance : Inhabited Yaml := ⟨missing⟩

mutual

/-- The number of scalars and references of a value, and of the ends of its collections. -/
def extent : Yaml → Nat
  | reference _ => 1
  | scalar _ _ _ => 1
  | sequence _ items => itemsExtent items + 2
  | mapping _ entries => entriesExtent entries + 2

/-- The extent of some items. -/
def itemsExtent : List Yaml → Nat
  | [] => 0
  | v :: rest => extent v + itemsExtent rest

/-- The extent of some entries. -/
def entriesExtent : List (Yaml × Yaml) → Nat
  | [] => 0
  | (key, v) :: rest => extent key + extent v + entriesExtent rest

end

/-- Puts a node in front of the nodes that carry a number, if it does. -/
def record (v : Yaml) (properties : Properties) (found : List (Nat × Yaml)) : List (Nat × Yaml) :=
  match properties.anchor with
  | some number => (number, v) :: found
  | none => found

mutual

/-- Puts the nodes of a value that carry a number in front of those found before it, so that of the
nodes of one number the last comes first. -/
def anchored (found : List (Nat × Yaml)) : Yaml → List (Nat × Yaml)
  | reference _ => found
  | scalar properties plain text => record (scalar properties plain text) properties found
  | sequence properties items =>
    itemsAnchored (record (sequence properties items) properties found) items
  | mapping properties entries =>
    entriesAnchored (record (mapping properties entries) properties found) entries

/-- Puts the nodes of some items that carry a number in front of those found before. -/
def itemsAnchored (found : List (Nat × Yaml)) : List Yaml → List (Nat × Yaml)
  | [] => found
  | v :: rest => itemsAnchored (anchored found v) rest

/-- Puts the nodes of some entries that carry a number in front of those found before. -/
def entriesAnchored (found : List (Nat × Yaml)) : List (Yaml × Yaml) → List (Nat × Yaml)
  | [] => found
  | (key, v) :: rest => entriesAnchored (anchored (anchored found key) v) rest

end

end Yaml

end WireSchema
