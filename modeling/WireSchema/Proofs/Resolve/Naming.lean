import WireSchema.Proofs.Resolve.Closure
import WireSchema.Proofs.Resolve.Splicing

/-!
# Names in a structure

A structure declares fields and constants, some of them by way of structures that are put inline.
In a resolved schema the name of a field is that of nothing else, so it leads to this field, and no
constant hides behind it. Constants are held to less: they are told apart from fields, but not from
each other. Of the constants of one name the first is found, and those after it are hidden.

* `Structure.Lookups`: what names lead to.
* `names_of_resolve`: this holds of all resolved structures, whose names are those that their
  layouts declare; and no name is declared twice unless two of the constants share it.
* `hidden_version`: a constant that is hidden by one that was put inline.
-/

namespace WireSchema

namespace Structure

/-- The names of the fields and the constants of a structure. -/
def names (s : Structure) : List String :=
  s.fields.map (·.name) ++ s.constants.map (·.name)

/-- What the names in a structure lead to. -/
structure Lookups (s : Structure) : Prop where
  /-- Under the name of a field this field is found, and no other. -/
  field : ∀ name f, s.field? name = some f ↔ f ∈ s.fields ∧ f.name = name
  /-- Under the name of a constant no field is found. -/
  not_field : ∀ c ∈ s.constants, s.field? c.name = none
  /-- Under the name of a field no constant is found. -/
  not_constant : ∀ f ∈ s.fields, s.constant? f.name = none
  /-- Of the constants of a name the first is found. -/
  constant : ∀ name c, s.constant? name = some c ↔
    ∃ before after, s.constants = before ++ c :: after ∧ c.name = name ∧
      ∀ b ∈ before, b.name ≠ name
  /-- If no two constants share a name, nothing else is declared under a name that is. -/
  nodup_iff : s.names.Nodup ↔ (s.constants.map (·.name)).Nodup

theorem constant?_eq_some_iff {s : Structure} {name : String} {c : Constant} :
    s.constant? name = some c ↔
      ∃ before after, s.constants = before ++ c :: after ∧ c.name = name ∧
        ∀ b ∈ before, b.name ≠ name := by
  rw [constant?, List.find?_eq_some_iff_append]
  constructor
  · rintro ⟨hname, before, after, hconstants, hbefore⟩
    exact ⟨before, after, hconstants, by simpa using hname, by simpa using hbefore⟩
  · rintro ⟨before, after, hconstants, hname, hbefore⟩
    exact ⟨by simpa using hname, before, after, hconstants, by simpa using hbefore⟩

namespace Sound

variable {below : List Structure} {s : Structure} (hs : s.Sound below)
include hs

theorem field?_eq_some_iff {name : String} {f : Field} :
    s.field? name = some f ↔ f ∈ s.fields ∧ f.name = name := by
  constructor
  · intro h
    exact ⟨List.mem_of_find?_eq_some h, by simpa using List.find?_some h⟩
  · rintro ⟨hf, rfl⟩
    exact Field.find?_eq_of_mem hs.distinct hf

theorem lookups : s.Lookups where
  field _ _ := hs.field?_eq_some_iff
  not_field c hc := by
    rw [Option.eq_none_iff_forall_ne_some]
    intro f hf
    obtain ⟨hf, hname⟩ := hs.field?_eq_some_iff.1 hf
    exact hs.disjoint f hf (hname ▸ List.mem_map_of_mem hc)
  not_constant _ := hs.constant?_eq_none
  constant _ _ := constant?_eq_some_iff
  nodup_iff := by
    rw [names, List.nodup_append]
    constructor
    · rintro ⟨-, hconstants, -⟩
      exact hconstants
    · intro hconstants
      refine ⟨hs.distinct, hconstants, ?_⟩
      rintro _ hname other hother rfl
      obtain ⟨f, hf, rfl⟩ := List.mem_map.1 hname
      exact hs.disjoint f hf hother

end Sound

end Structure

/-- The names of a resolved structure are those that its layout declares, with the structures that
are put inline. They lead to the fields and constants as `Structure.Lookups` says: nothing hides a
field, and nothing but a constant hides a constant. -/
theorem names_of_resolve {d : Document} {schema : Schema} (h : Schema.resolve d = .ok schema)
    {s : Structure} (hs : s ∈ schema.structures) :
    s.Lookups ∧ ∃ layout fs, d.layout? s.name = some layout ∧ Spliced d layout fs s.constants ∧
      s.names = fs.map (·.name) ++ s.constants.map (·.name) := by
  obtain ⟨layout, fs, hlayout, hspliced, hfields⟩ := (built_of_resolve h).splices s hs
  refine ⟨((layered_of_resolve h).sound hs).lookups, layout, fs, hlayout, hspliced, ?_⟩
  rw [Structure.names, names_of_becomes hfields]

/-! ### Examples -/

/-- The version of a packet came with a header that was put inline twice over, and is found. -/
theorem names_of_packetStructure :
    Schema.resolve packetDocument = .ok packetSchema ∧
      packetStructure ∈ packetSchema.structures ∧ packetStructure.names.Nodup ∧
      packetStructure.constant? "version" = some ⟨"version", .two, 7⟩ ∧
      packetStructure.field? "version" = none := by
  obtain ⟨hlookups, -⟩ := names_of_resolve resolve_packetDocument (List.mem_cons_self ..)
  refine ⟨resolve_packetDocument, List.mem_cons_self, hlookups.nodup_iff.2 (by decide), ?_, ?_⟩
  · exact (hlookups.constant _ _).2 ⟨[], [], rfl, rfl, List.forall_mem_nil _⟩
  · exact hlookups.not_field ⟨"version", .two, 7⟩ List.mem_cons_self

/-- Memos, which have a version of their own next to that of their header. -/
def memoDocument : Document :=
  .ofList [
    ("Header", .struct [
      ((Attribute.named "version" "byte").withSize (.fixed 1)).asConstant 1]),
    ("Memo", .struct [
      .inlined "Header",
      ((Attribute.named "version" "byte").withSize (.fixed 1)).asConstant 2,
      (Attribute.named "text" "byte").withSize (.fixed 8)])]

/-- The structure of memos. -/
def memoStructure : Structure where
  name := "Memo"
  fields := [⟨"text", .fixedBlob 8⟩]
  constants := [⟨"version", .one, 1⟩, ⟨"version", .one, 2⟩]
  fixedSize := some 8
  minSize := 8

/-- The schema of memos. -/
def memoSchema : Schema where
  structures := [memoStructure,
    { name := "Header", fields := [], constants := [⟨"version", .one, 1⟩], fixedSize := some 0,
      minSize := 0 }]
  enumerations := []

/-- A document is accepted although two constants of a structure share a name, after one of them was
put inline. The own version of the structure is not found. -/
theorem hidden_version :
    Schema.resolve memoDocument = .ok memoSchema ∧ memoStructure ∈ memoSchema.structures ∧
      ¬memoStructure.names.Nodup ∧ ⟨"version", .one, 2⟩ ∈ memoStructure.constants ∧
      memoStructure.constant? "version" = some ⟨"version", .one, 1⟩ := by
  refine ⟨?_, List.mem_cons_self, ?_, ?_, rfl⟩
  · decide +kernel
  · decide
  · decide

end WireSchema
