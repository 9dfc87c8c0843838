import WireSchema.Proofs.Codec.Nesting
import WireSchema.Proofs.Codec.Writing
import Mathlib.Logic.Relation

/-!
# The values in a value

A value of a structure holds values of other structures, in fields and in items of groups, which
hold values in turn. Writing a value comes to all of them. Where a nested structure is missing it
comes to an empty one, which is reached like any other; so what is said of all values that are
reached is said of what stands for the missing ones, too.

* `Schema.LeadsTo` is one step into a value, `Schema.Reaches` any number of them.
* `Schema.read_of_find`, `Schema.encoder_of_find`: what is done with a structure is made of what is
  done with the structures of the same schema that its fields refer to.
* `Layered.induction`: what is passed on from the structures that a structure refers to holds of all
  structures.
* `Schema.write_of_reaches`: what is written for a value contains what is written for each value
  that is reached.
-/

namespace WireSchema

/-- What a field of this kind with the given content holds: a structure and a value of it. Where a
nested structure is missing, an empty value stands in its place. -/
inductive FieldKind.LeadsTo : FieldKind → Option Value → String × Record → Prop
  | embedded {type : String} {r : Record} : LeadsTo (.embedded type) (some (.record r)) (type, r)
  | missing {type : String} : LeadsTo (.embedded type) none (type, [])
  | item {type : String} {cardinality : Cardinality} {items : List Value} {r : Record} :
    .record r ∈ items →
      LeadsTo (.repeated (.struct type) cardinality) (some (.list items)) (type, r)

namespace FieldKind

variable {kind : FieldKind} {content : Option Value} {p : String × Record}

/-- The structure of what a field holds is one that the field refers to. -/
theorem LeadsTo.mem_references (h : kind.LeadsTo content p) : p.1 ∈ kind.references := by
  cases h <;> exact List.mem_singleton_self _

/-- An empty value holds nothing but empty values. -/
theorem LeadsTo.eq_nil (h : kind.LeadsTo none p) : p.2 = [] := by
  cases h
  rfl

theorem leadsTo_repeated {element : Element} {cardinality : Cardinality} {items : List Value} :
    (FieldKind.repeated element cardinality).LeadsTo (some (.list items)) p ↔
      ∃ type r, element = .struct type ∧ .record r ∈ items ∧ p = (type, r) := by
  constructor
  · intro h
    cases h with
    | item hr => exact ⟨_, _, rfl, hr, rfl⟩
  · rintro ⟨type, r, rfl, hr, rfl⟩
    exact .item hr

end FieldKind

namespace Schema

/-- A value of a structure holds a value of another in one of its fields. -/
def LeadsTo (schema : Schema) (p q : String × Record) : Prop :=
  ∃ s, schema.structure? p.1 = some s ∧ ∃ f ∈ s.fields, f.kind.LeadsTo (p.2.get? f.name) q

/-- A value of a structure is another or holds it at some depth. -/
abbrev Reaches (schema : Schema) : String × Record → String × Record → Prop :=
  Relation.ReflTransGen schema.LeadsTo

variable {schema : Schema}

/-- An empty value reaches nothing but empty values. -/
theorem Reaches.eq_nil {type : String} {p : String × Record} (h : schema.Reaches (type, []) p) :
    p.2 = [] := by
  induction h with
  | refl => rfl
  | tail _ hstep ih =>
    obtain ⟨s, -, f, -, hf⟩ := hstep
    rw [ih, Record.get?_nil] at hf
    exact hf.eq_nil

/-! ### Structures of a schema -/

variable (h : Layered schema.structures) {name : String} {s : Structure}
  (hs : schema.structure? name = some s)
include h hs

/-- A structure is read from what the structures of the schema are read as. -/
theorem read_of_find (limits : Limits) :
    schema.read limits name = Decode.structure? limits (schema.read limits) s :=
  h.interpret_of_find _ _ (Decode.local_structure? limits) hs

/-- A structure is encoded by means of the encoders of the schema. -/
theorem encoder_of_find : schema.encoder name = Encode.encoder schema.encoder s :=
  h.interpret_of_find _ _ Encode.local_encoder hs

theorem sound_of_find : s.Sound schema.structures := h.sound (mem_of_findStructure? hs)

theorem write_of_find (r : Record) : schema.write name r = Encode.write schema.encoder s r := by
  rw [write, encoder_of_find h hs]
  rfl

theorem encodedSize_of_find (r : Record) :
    schema.encodedSize name r = Encode.size schema.encoder s r := by
  rw [encodedSize, encoder_of_find h hs]
  rfl

/-- The number of a derived field is derived from the field that it describes. -/
theorem derived_of_find {d : Field} (hd : d ∈ s.fields) {width : Width} {content : String}
    {rule : Derivation} (hk : d.kind = .derived width content rule) (r : Record) :
    schema.derived name r d.name = Encode.derive schema.encoder s r content rule := by
  rw [derived, encoder_of_find h hs]
  show Encode.derived schema.encoder s r d.name = _
  rw [Encode.derived, Encode.field_eq_ok (sound_of_find h hs) hd]
  simp only [bind, Except.bind, hk]

end Schema

/-- What holds of the structures that are not there, and of a structure if it holds of those that
its fields refer to, holds of all structures. -/
theorem Layered.induction {structures : List Structure} (h : Layered structures)
    {P : String → Prop} (unknown : ∀ name, findStructure? structures name = none → P name)
    (step : ∀ name s, findStructure? structures name = some s →
      (∀ f ∈ s.fields, ∀ type ∈ f.kind.references, P type) → P name) (name : String) : P name := by
  induction hn : layer structures name using Nat.strong_induction_on generalizing name with
  | h n ih =>
    subst hn
    cases hs : findStructure? structures name with
    | none => exact unknown name hs
    | some s =>
      refine step name s hs fun f hf type ht => ih _ ?_ type rfl
      -- what a structure refers to lies in a deeper layer
      have hdeeper := h.layer_lt_of_reference (mem_of_findStructure? hs) hf ht
      rwa [name_of_findStructure? hs] at hdeeper

/-- What is passed on from the structures that a structure refers to holds of all structures that
are there. -/
theorem Layered.induction_of_found {structures : List Structure} (h : Layered structures)
    {P : String → Structure → Prop}
    (step : ∀ name s, findStructure? structures name = some s →
      (∀ f ∈ s.fields, ∀ type ∈ f.kind.references, ∃ t, findStructure? structures type = some t ∧
        P type t) → P name s)
    {name : String} {s : Structure} (hs : findStructure? structures name = some s) : P name s := by
  induction name using h.induction generalizing s with
  | unknown name hnone => cases hnone.symm.trans hs
  | step name t ht ih =>
    cases ht.symm.trans hs
    refine step name t ht fun f hf type htype => ?_
    have hsound := h.sound (mem_of_findStructure? ht)
    obtain ⟨u, hu⟩ := Option.isSome_iff_exists.1 (hsound.references f hf type htype)
    exact ⟨u, hu, ih f hf type htype hu⟩

/-! ### Writing what is reached -/

namespace Schema

variable {schema : Schema}

/-- What is written for a structure is written for a structure of the schema. -/
theorem exists_of_write {name : String} {r : Record} {bs : Bytes}
    (hw : schema.write name r = .ok bs) : ∃ s, schema.structure? name = some s := by
  cases hs : schema.structure? name with
  | some s => exact ⟨s, rfl⟩
  | none =>
    rw [write, encoder, interpret_of_find_eq_none _ _ hs] at hw
    cases hw

variable (h : Layered schema.structures)
include h

/-- What is written for a value contains what is written for each of its fields. -/
theorem fieldBytes_of_write {name : String} {s : Structure} (hs : schema.structure? name = some s)
    {r : Record} {bs : Bytes} (hw : schema.write name r = .ok bs) {f : Field} (hf : f ∈ s.fields) :
    ∃ part, part <:+: bs ∧ Encode.fieldBytes schema.encoder s r f = .ok part := by
  rw [write_of_find h hs] at hw
  obtain ⟨chunks, hchunks, rfl⟩ := Encode.write_eq_ok_iff.1 hw
  obtain ⟨part, hpart, hbytes⟩ := exists_mem_of_forall₂ hchunks hf
  exact ⟨part, List.infix_of_mem_flatten hpart, hbytes⟩

/-- What is written for a value contains what is written for the values that it holds. -/
theorem write_of_leadsTo {p q : String × Record} (hpq : schema.LeadsTo p q) {bs : Bytes}
    (hw : schema.write p.1 p.2 = .ok bs) :
    ∃ part, part <:+: bs ∧ schema.write q.1 q.2 = .ok part := by
  obtain ⟨s, hs, f, hf, hq⟩ := hpq
  obtain ⟨chunk, hinside, hchunk⟩ := fieldBytes_of_write h hs hw hf
  generalize hk : f.kind = kind at hq
  generalize hget : p.2.get? f.name = content at hq
  cases hq with
  | embedded =>
    obtain ⟨inner, hinner, hbs⟩ := (Encode.fieldBytes_embedded hk).1 hchunk
    rw [hget] at hinner
    cases hinner
    exact ⟨chunk, hinside, hbs⟩
  | missing =>
    obtain ⟨inner, hinner, hbs⟩ := (Encode.fieldBytes_embedded hk).1 hchunk
    rw [hget] at hinner
    cases hinner
    exact ⟨chunk, hinside, hbs⟩
  | item hr =>
    obtain ⟨items, parts, hitems, -, hparts, rfl⟩ := (Encode.fieldBytes_repeated hk).1 hchunk
    rw [hget] at hitems
    cases hitems
    obtain ⟨part, hpart, hitem⟩ := exists_mem_of_forall₂ hparts hr
    exact ⟨part, (List.infix_of_mem_flatten hpart).trans hinside, hitem⟩

/-- What is written for a value contains what is written for the values that it reaches. -/
theorem write_of_reaches {p q : String × Record} (hpq : schema.Reaches p q) {bs : Bytes}
    (hw : schema.write p.1 p.2 = .ok bs) :
    ∃ part, part <:+: bs ∧ schema.write q.1 q.2 = .ok part := by
  induction hpq with
  | refl => exact ⟨bs, List.infix_rfl, hw⟩
  | tail _ hstep ih =>
    obtain ⟨middle, hmiddle, hw⟩ := ih
    obtain ⟨part, hpart, hw⟩ := write_of_leadsTo h hstep hw
    exact ⟨part, hpart.trans hmiddle, hw⟩

end Schema

end WireSchema
