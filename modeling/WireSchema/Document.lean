import WireSchema.Layout

/-!
# Schema documents

A `Document` is a schema as its author writes it: a collection of named type descriptors. It is
loose on purpose. A size may be a number or the name of a sibling field, most parts of an attribute
may be absent, and nothing is promised about the names that occur in it; that is settled when a
document is resolved.

The types of a document are kept in the order of their names, each name once, so two documents with
the same types are equal.
-/

namespace WireSchema

/-- How the bits of a scalar are to be understood. -/
inductive Signedness where
  | unsigned
  | signed
deriving DecidableEq, Repr

/-- What a sibling field that sizes a group measures. -/
inductive Sizing where
  /-- The number of items. -/
  | count
  /-- The number of bytes of all items together. -/
  | bytes
deriving DecidableEq, Repr

/-- A special placement of an attribute. -/
inductive Disposition where
  /-- The fields of the referenced structure take the place of the attribute. -/
  | inline
  /-- The attribute is a constant that is not on the wire. -/
  | const
deriving DecidableEq, Repr

/-- The size of an attribute. -/
inductive Size where
  /-- A width in bytes or a number of items. -/
  | fixed (n : UInt64)
  /-- The name of the sibling field that holds the size. -/
  | field (name : String)
deriving DecidableEq, Repr

/-- One entry of the layout of a structure. -/
structure Attribute where
  /-- The field name; an inline attribute needs none. -/
  name : Option String
  /-- Either `byte` or the name of another type. -/
  type : String
  size : Option Size
  sizing : Option Sizing
  disposition : Option Disposition
  /-- The number of a constant. -/
  value : Option UInt64
  signedness : Option Signedness
deriving DecidableEq, Repr

namespace Attribute

/-- An attribute of the given name and type, and nothing else. -/
def named (name type : String) : Attribute where
  name := some name
  type := type
  size := none
  sizing := none
  disposition := none
  value := none
  signedness := none

/-- The attribute that puts the fields of the given type in its place. -/
def inlined (type : String) : Attribute :=
  { named "" type with name := none, disposition := some .inline }

/-- The attribute with the given size. -/
def withSize (a : Attribute) (size : Size) : Attribute := { a with size := some size }

/-- The attribute with the given sizing. -/
def withSizing (a : Attribute) (sizing : Sizing) : Attribute := { a with sizing := some sizing }

/-- The attribute as an unsigned scalar. -/
def asUnsigned (a : Attribute) : Attribute := { a with signedness := some .unsigned }

/-- The attribute as a constant. -/
def asConstant (a : Attribute) (value : UInt64) : Attribute :=
  { a with disposition := some .const, value := some value }

end Attribute

/-- A type, as a document describes it. -/
inductive Descriptor where
  /-- A run of bytes, or a scalar if it has a signedness. -/
  | byte (size : UInt64) (signedness : Option Signedness)
  /-- A scalar with labelled values. -/
  | enum (size : UInt64) (labels : List Label)
  /-- An ordered list of attributes. -/
  | struct (layout : List Attribute)
deriving DecidableEq, Repr

/-- A collection of named type descriptors. -/
structure Document where
  /-- The types in the order of their names. -/
  types : List (String × Descriptor)
  sorted : types.Pairwise (·.1 < ·.1)
deriving DecidableEq

namespace Document

/-- The document without any type. -/
def empty : Document := ⟨[], .nil⟩

/-- The descriptor of the given name. -/
def get? (d : Document) (name : String) : Option Descriptor := d.types.lookup name

/-- Puts a type in its place in a list of types that is in order. -/
def place (name : String) (descriptor : Descriptor) :
    List (String × Descriptor) → List (String × Descriptor)
  | [] => [(name, descriptor)]
  | (n, t) :: rest =>
    if name = n then (name, descriptor) :: rest
    else if name < n then (name, descriptor) :: (n, t) :: rest
    else (n, t) :: place name descriptor rest

theorem mem_place {name : String} {descriptor : Descriptor} {types : List (String × Descriptor)}
    {p : String × Descriptor} (h : p ∈ place name descriptor types) :
    p = (name, descriptor) ∨ p ∈ types := by
  induction types with
  | nil => simpa [place] using h
  | cons q rest ih =>
    obtain ⟨n, t⟩ := q
    simp only [place] at h
    split at h
    · rcases List.mem_cons.1 h with h | h
      · exact .inl h
      · exact .inr (List.mem_cons_of_mem _ h)
    · split at h
      · rcases List.mem_cons.1 h with h | h
        · exact .inl h
        · exact .inr h
      · rcases List.mem_cons.1 h with h | h
        · exact .inr (h ▸ List.mem_cons_self ..)
        · exact (ih h).imp id (List.mem_cons_of_mem _)

theorem sorted_place {types : List (String × Descriptor)} (h : types.Pairwise (·.1 < ·.1))
    (name : String) (descriptor : Descriptor) :
    (place name descriptor types).Pairwise (·.1 < ·.1) := by
  induction types with
  | nil => simp [place]
  | cons q rest ih =>
    obtain ⟨n, t⟩ := q
    obtain ⟨hall, hrest⟩ := List.pairwise_cons.1 h
    simp only [place]
    split
    · next he =>
      subst he
      exact List.pairwise_cons.2 ⟨hall, hrest⟩
    · next he =>
      split
      · next hlt =>
        refine List.pairwise_cons.2 ⟨fun p hp => ?_, h⟩
        rcases List.mem_cons.1 hp with hp | hp
        · exact hp ▸ hlt
        · exact String.lt_trans hlt (hall p hp)
      · next hge =>
        refine List.pairwise_cons.2 ⟨fun p hp => ?_, ih hrest⟩
        rcases mem_place hp with hp | hp
        · exact hp ▸ Std.lt_of_le_of_ne (String.not_lt.1 hge) (Ne.symm he)
        · exact hall p hp

/-- The document with a type added, in place of the one of that name if there is one. -/
def insert (d : Document) (name : String) (descriptor : Descriptor) : Document :=
  ⟨place name descriptor d.types, sorted_place d.sorted name descriptor⟩

/-- The document of the given types, of which the last of a name counts. -/
def ofList (types : List (String × Descriptor)) : Document :=
  types.foldl (fun d (name, descriptor) => d.insert name descriptor) empty

/-- The layout of the structure of the given name. -/
def layout? (d : Document) (name : String) : Option (List Attribute) :=
  match d.get? name with
  | some (.struct layout) => some layout
  | _ => none

end Document

end WireSchema
