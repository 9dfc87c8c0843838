import WireSchema.Proofs.Resolve.Visit

/-!
# Closed schemas

In a resolved schema every name leads to what it should: the type of a nested structure or of an
item to a structure, the size field of a field to a derived field before it, and the content of a
derived field to the one field that names it as its size field. `Structure.Closed` puts this
together; `closed_of_resolve` says that it holds of all structures of all resolved schemas, however
their fields came to be there.
-/

namespace WireSchema

/-- What makes a structure closed in a schema. That `d` stands before `f` is said by
`[d, f].Sublist s.fields`. -/
structure Structure.Closed (schema : Schema) (s : Structure) : Prop where
  /-- The structure is found under its name. -/
  found : schema.structure? s.name = some s
  /-- The type of a nested structure is a structure of the schema. -/
  embedded : ∀ f ∈ s.fields, ∀ type, f.kind = .embedded type →
    ∃ t, schema.structure? type = some t
  /-- The type of the items of a group is one, too, if they are structures. -/
  items : ∀ f ∈ s.fields, ∀ type cardinality, f.kind = .repeated (.struct type) cardinality →
    ∃ t, schema.structure? type = some t
  /-- No two fields have the same name. -/
  distinct : (s.fields.map (·.name)).Nodup
  /-- No field has the name of a constant. -/
  disjoint : ∀ f ∈ s.fields, ∀ c ∈ s.constants, f.name ≠ c.name
  /-- The length of a blob stands before it. -/
  blobs : ∀ f ∈ s.fields, ∀ sizeField, f.kind = .variableBlob sizeField →
    ∃ width, [⟨sizeField, .derived width f.name .byteLength⟩, f].Sublist s.fields
  /-- The number of items of a group stands before it. -/
  counted : ∀ f ∈ s.fields, ∀ item sizeField, f.kind = .repeated item (.counted sizeField) →
    ∃ width, [⟨sizeField, .derived width f.name .itemCount⟩, f].Sublist s.fields
  /-- The length of a group stands before it. -/
  budgeted : ∀ f ∈ s.fields, ∀ item sizeField, f.kind = .repeated item (.budgeted sizeField) →
    ∃ width, [⟨sizeField, .derived width f.name .groupSize⟩, f].Sublist s.fields
  /-- A derived field describes one field after it, which names it in turn, and no other does. -/
  governs : ∀ d ∈ s.fields, ∀ width content rule, d.kind = .derived width content rule →
    ∃ f, [d, f].Sublist s.fields ∧ f.name = content ∧ f.kind.governor? = some (d.name, rule) ∧
      ∀ g ∈ s.fields, ∀ rule', g.kind.governor? = some (d.name, rule') → g = f
  /-- Every constant fits its width. -/
  fits : ∀ c ∈ s.constants, c.value.toNat ≤ c.width.maxValue

namespace Structure.Sound

variable {below : List Structure} {s : Structure}

/-- A name stands for one field at most. -/
theorem eq_of_name_eq (hs : s.Sound below) {f g : Field} (hf : f ∈ s.fields) (hg : g ∈ s.fields)
    (h : f.name = g.name) : f = g :=
  List.inj_on_of_nodup_map hs.distinct hf hg h

/-- The size of a field stands before it. -/
theorem governed (hs : s.Sound below) {f : Field} (hf : f ∈ s.fields) {sizeField : String}
    {rule : Derivation} (hk : f.kind.governor? = some (sizeField, rule)) :
    ∃ width, [⟨sizeField, .derived width f.name rule⟩, f].Sublist s.fields := by
  rcases hs.wired.governed f hf sizeField rule hk with h | h
  · cases h
  · exact h

/-- A field describes one other field at most. -/
theorem governed_unique (hs : s.Sound below) {f g : Field} (hf : f ∈ s.fields) (hg : g ∈ s.fields)
    {sizeField : String} {rule rule' : Derivation} (hk : f.kind.governor? = some (sizeField, rule))
    (hk' : g.kind.governor? = some (sizeField, rule')) : g = f := by
  obtain ⟨width, hd⟩ := hs.governed hf hk
  obtain ⟨width', hd'⟩ := hs.governed hg hk'
  have hsame := hs.eq_of_name_eq (hd.subset List.mem_cons_self) (hd'.subset List.mem_cons_self) rfl
  refine hs.eq_of_name_eq hg hf ?_
  have hkind := congrArg Field.kind hsame
  injection hkind with _ hcontent
  exact hcontent.symm

end Structure.Sound

/-- Every structure of a resolved schema is closed in it. -/
theorem closed_of_resolve {d : Document} {schema : Schema} (h : Schema.resolve d = .ok schema)
    {s : Structure} (hs : s ∈ schema.structures) : s.Closed schema := by
  have hl := layered_of_resolve h
  have hsound := hl.sound hs
  have hfound : ∀ f ∈ s.fields, ∀ type ∈ f.kind.references,
      ∃ t, schema.structure? type = some t := fun f hf type ht =>
    Option.isSome_iff_exists.1 (hsound.references f hf type ht)
  constructor
  case found => exact hl.find_of_mem hs
  case embedded =>
    intro f hf type hk
    exact hfound f hf type (by simp [hk, FieldKind.references])
  case items =>
    intro f hf type cardinality hk
    exact hfound f hf type (by simp [hk, FieldKind.references])
  case distinct => exact hsound.distinct
  case disjoint =>
    intro f hf c hc hname
    exact hsound.disjoint f hf (hname ▸ List.mem_map_of_mem hc)
  case blobs =>
    intro f hf sizeField hk
    exact hsound.governed hf (by rw [hk]; rfl)
  case counted =>
    intro f hf item sizeField hk
    exact hsound.governed hf (by rw [hk]; rfl)
  case budgeted =>
    intro f hf item sizeField hk
    exact hsound.governed hf (by rw [hk]; rfl)
  case governs =>
    intro d hd width content rule hk
    obtain ⟨f, hdf, hname, hgov⟩ := hsound.wired.governs d hd width content rule hk
    have hf : f ∈ s.fields := hdf.subset (by simp)
    exact ⟨f, hdf, hname, hgov, fun g hg rule' hk' => hsound.governed_unique hf hg hgov hk'⟩
  case fits => exact hsound.fits

/-! ### An example -/

/-- Packets: a header with two sizes goes inline into an envelope, which uses one of them, and with
the envelope into a packet, which uses the other. -/
def packetDocument : Document :=
  .ofList [
    ("word", .byte 2 (some .unsigned)),
    ("Header", .struct [
      .named "length" "word",
      .named "total" "word",
      (Attribute.named "version" "word").asConstant 7]),
    ("Envelope", .struct [
      .inlined "Header",
      (Attribute.named "payload" "byte").withSize (.field "length")]),
    ("Chunk", .struct [
      .named "count" "word",
      (Attribute.named "words" "word").withSize (.field "count")]),
    ("Packet", .struct [
      .inlined "Envelope",
      (Attribute.named "digest" "byte").withSize (.fixed 3),
      .named "first" "Chunk",
      ((Attribute.named "parts" "Chunk").withSize (.field "total")).withSizing .bytes])]

/-- The structure of packets. -/
def packetStructure : Structure where
  name := "Packet"
  fields := [
    ⟨"length", .derived .two "payload" .byteLength⟩,
    ⟨"total", .derived .two "parts" .groupSize⟩,
    ⟨"payload", .variableBlob "length"⟩,
    ⟨"digest", .fixedBlob 3⟩,
    ⟨"first", .embedded "Chunk"⟩,
    ⟨"parts", .repeated (.struct "Chunk") (.budgeted "total")⟩]
  constants := [⟨"version", .two, 7⟩]
  fixedSize := none
  minSize := 9

/-- The schema of packets. -/
def packetSchema : Schema where
  structures := [
    packetStructure,
    { name := "Envelope"
      fields := [
        ⟨"length", .derived .two "payload" .byteLength⟩,
        ⟨"total", .scalar .two⟩,
        ⟨"payload", .variableBlob "length"⟩]
      constants := [⟨"version", .two, 7⟩]
      fixedSize := none
      minSize := 4 },
    { name := "Header"
      fields := [⟨"length", .scalar .two⟩, ⟨"total", .scalar .two⟩]
      constants := [⟨"version", .two, 7⟩]
      fixedSize := some 4
      minSize := 4 },
    { name := "Chunk"
      fields := [
        ⟨"count", .derived .two "words" .itemCount⟩,
        ⟨"words", .repeated (.scalar .two) (.counted "count")⟩]
      constants := []
      fixedSize := none
      minSize := 2 }]
  enumerations := []

theorem resolve_packetDocument : Schema.resolve packetDocument = .ok packetSchema := by
  decide +kernel

/-- The size of the parts of a packet comes from a header that is put inline twice over. -/
theorem closed_packetStructure :
    Schema.resolve packetDocument = .ok packetSchema ∧
      packetStructure ∈ packetSchema.structures ∧ packetStructure.Closed packetSchema :=
  ⟨resolve_packetDocument, List.mem_cons_self,
    closed_of_resolve resolve_packetDocument List.mem_cons_self⟩

end WireSchema
