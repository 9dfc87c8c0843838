import WireSchema.Proofs.Codec.Nesting
import WireSchema.Proofs.Codec.Passes

/-!
# The slices of an encoding

An encoding has a slice for each field, in wire order. The slice of a derived field holds the number
that is derived from the field that it describes, and this number is the truth about the slice of
that field, or about its items.

* `Encode.SameContent`: values that hold the same content. They are encoded alike, whatever they
  hold under the names of derived fields.
* `Schema.Sliced`: an encoding taken apart into slices.
* `Schema.derived_on_wire`: all encodings are made of slices of which derived fields tell the truth.
-/

namespace WireSchema

/-! ### Values with the same content -/

namespace Encode

variable {nested : String → Encoder} {below : List Structure} {s : Structure} {v w : Record}

/-- Two values hold the same in all content fields. -/
def SameContent (s : Structure) (v w : Record) : Prop :=
  ∀ f ∈ s.fields, f.isContent → w.get? f.name = v.get? f.name

/-- Values that differ only under the name of a derived field hold the same content. -/
theorem SameContent.of_derived (hs : s.Sound below) {d : Field} (hd : d ∈ s.fields)
    {width : Width} {content : String} {rule : Derivation}
    (hk : d.kind = .derived width content rule)
    (h : ∀ other, other ≠ d.name → w.get? other = v.get? other) : SameContent s v w := by
  intro f hf hcontent
  refine h f.name fun hname => ?_
  rw [List.inj_on_of_nodup_map hs.distinct hf hd hname] at hcontent
  exact Field.not_isContent_of_derived hk hcontent

theorem SameContent.fieldSize_eq (h : SameContent s v w) {f : Field} (hf : f ∈ s.fields) :
    fieldSize nested s f (w.get? f.name) = fieldSize nested s f (v.get? f.name) := by
  rcases f.isContent_or_derived with hcontent | ⟨width, content, rule, hk⟩
  · rw [h f hf hcontent]
  · simp only [fieldSize, hk]

theorem SameContent.size_eq (h : SameContent s v w) : size nested s w = size nested s v := by
  unfold size
  cases s.fixedSize with
  | some n => rfl
  | none => exact addSizes_congr fun f hf => h.fieldSize_eq hf

/-- A derived number follows from content. -/
theorem SameContent.derive_eq (h : SameContent s v w) (hs : s.Sound below) {d : Field}
    (hd : d ∈ s.fields) {width : Width} {content : String} {rule : Derivation}
    (hk : d.kind = .derived width content rule) :
    derive nested s w content rule = derive nested s v content rule := by
  obtain ⟨c, hdc, rfl, hgovernor⟩ := hs.wired.governs d hd width content rule hk
  have hget := h c (hdc.subset (by simp)) (Field.isContent_of_governor? hgovernor)
  cases rule <;> simp only [derive, hget]

theorem SameContent.derived_eq (h : SameContent s v w) (hs : s.Sound below) (name : String) :
    derived nested s w name = derived nested s v name := by
  unfold derived field Structure.field?
  cases hfind : s.fields.find? (·.name = name) with
  | none => rfl
  | some d =>
    cases hk : d.kind with
    | derived width content rule =>
      simp only [bind, Except.bind, hk, h.derive_eq hs (List.mem_of_find?_eq_some hfind) hk]
    | _ => simp only [bind, Except.bind, hk]

theorem SameContent.fieldBytes_eq (h : SameContent s v w) (hs : s.Sound below) {f : Field}
    (hf : f ∈ s.fields) : fieldBytes nested s w f = fieldBytes nested s v f := by
  unfold fieldBytes
  rcases f.isContent_or_derived with hcontent | ⟨width, content, rule, hk⟩
  · rw [h f hf hcontent]
    cases hk : f.kind with
    | derived width content rule => exact absurd hcontent (Field.not_isContent_of_derived hk)
    | _ => rfl
  · simp only [hk, h.derive_eq hs hf hk]

theorem SameContent.write_eq (h : SameContent s v w) (hs : s.Sound below) :
    write nested s w = write nested s v := by
  rw [write, write, mapM_congr fun f hf => h.fieldBytes_eq hs hf]

end Encode

namespace Schema

variable {schema : Schema} {name : String} {s : Structure} {v w : Record}

/-- Values with the same content have the same encoding. -/
theorem encode_congr (h : Layered schema.structures) (hs : schema.structure? name = some s)
    (hsame : Encode.SameContent s v w) : schema.encode name w = schema.encode name v := by
  have hsound := sound_of_find h hs
  rw [encode, encode, encodedSize_of_find h hs, encodedSize_of_find h hs, write_of_find h hs,
    write_of_find h hs, hsame.size_eq, hsame.write_eq hsound]

theorem derived_congr (h : Layered schema.structures) (hs : schema.structure? name = some s)
    (hsame : Encode.SameContent s v w) (field : String) :
    schema.derived name w field = schema.derived name v field := by
  rw [derived, derived, encoder_of_find h hs]
  exact hsame.derived_eq (sound_of_find h hs) field

/-! ### Slices -/

/-- The bytes are made of a slice for each field of the structure, in wire order. What is written in
the slice of a derived field is derived from another field, and is the truth about that field. -/
structure Sliced (schema : Schema) (name : String) (s : Structure) (v : Record) (bs : Bytes)
    (slice : Field → Bytes) : Prop where
  concat : bs = s.fields.flatMap slice
  /-- The slice of a field is what is written for it. -/
  written : ∀ f ∈ s.fields, Encode.fieldBytes schema.encoder s v f = .ok (slice f)
  truthful : ∀ d ∈ s.fields, ∀ width content rule, d.kind = .derived width content rule →
    ∃ c, [d, c].Sublist s.fields ∧ c.name = content ∧ c.kind.governor? = some (d.name, rule) ∧
      ∃ n, schema.derived name v d.name = .ok n ∧ n ≤ width.maxValue ∧
        slice d = leBytes width.bytes n ∧ rule.Tells (v.get? c.name) n (slice c)

/-- What is written for a value can be taken apart. -/
theorem exists_sliced (h : Layered schema.structures) (hs : schema.structure? name = some s)
    {bs : Bytes} (hw : schema.write name v = .ok bs) :
    ∃ slice, schema.Sliced name s v bs slice := by
  let slice : Field → Bytes := fun f =>
    (Encode.fieldBytes schema.encoder s v f).toOption.getD []
  have hslice : ∀ f chunk, Encode.fieldBytes schema.encoder s v f = .ok chunk →
      slice f = chunk := by
    intro f chunk hchunk
    simp only [slice, hchunk, Except.toOption, Option.getD_some]
  refine ⟨slice, ?_, ?_, ?_⟩
  case refine_1 =>
    rw [write_of_find h hs] at hw
    obtain ⟨chunks, hchunks, rfl⟩ := Encode.write_eq_ok_iff.1 hw
    have hmap : List.Forall₂ (· = ·) (s.fields.map slice) chunks :=
      List.forall₂_map_left_iff.2 (hchunks.imp hslice)
    rw [List.forall₂_eq_eq_eq] at hmap
    rw [List.flatMap_def, hmap]
  case refine_2 =>
    intro f hf
    obtain ⟨chunk, -, hchunk⟩ := fieldBytes_of_write h hs hw hf
    rw [hslice f chunk hchunk, hchunk]
  case refine_3 =>
    intro d hd width content rule hk
    obtain ⟨c, hdc, hname, hgovernor, n, described, hderived, hle, hsize, hdescribed, -, htells⟩ :=
      tells_of_write h hs hw hd hk
    rw [← hslice c described hdescribed] at htells
    exact ⟨c, hdc, hname, hgovernor, n, hderived, hle, hslice d _ hsize, htells⟩

/-- Derived fields tell the truth on the wire. An encoding is made of a slice for each field, and
the slice of a derived field holds the number that is the length of the slice that it describes, or
the number of items in it. A value makes no difference by what it holds under the name of a derived
field, and it is not encoded if a derived number does not fit its width. -/
theorem derived_on_wire {d : Document} (h : Schema.resolve d = .ok schema)
    (hs : schema.structure? name = some s) (v : Record) :
    (∀ bs, schema.encode name v = .ok bs → ∃ slice, schema.Sliced name s v bs slice) ∧
    ∀ d ∈ s.fields, ∀ width content rule, d.kind = .derived width content rule →
      (∀ w : Record, (∀ other, other ≠ d.name → w.get? other = v.get? other) →
        schema.encode name w = schema.encode name v ∧
          ∀ field, schema.derived name w field = schema.derived name v field) ∧
      ∀ n, schema.derived name v d.name = .ok n → width.maxValue < n →
        ∀ bs, schema.encode name v ≠ .ok bs := by
  have hl := layered_of_resolve h
  refine ⟨fun bs he => exists_sliced hl hs ((encode_eq_ok_iff hl).1 he).1, ?_⟩
  intro d hd width content rule hk
  constructor
  · intro w hw
    have hsame := Encode.SameContent.of_derived (sound_of_find hl hs) hd hk hw
    exact ⟨encode_congr hl hs hsame, derived_congr hl hs hsame⟩
  · intro n hn hlarge bs he
    -- what is derived is what was written, and that fits
    obtain ⟨c, -, -, -, m, described, hm, hle, -⟩ :=
      tells_of_write hl hs ((encode_eq_ok_iff hl).1 he).1 hd hk
    cases hn.symm.trans hm
    omega

end Schema

/-! ### An example -/

/-- A packet with a payload of 65536 bytes. -/
def bulkyPacket : Record := [("payload", .bytes (List.replicate 65536 0))]

theorem derived_bulkyPacket : packetSchema.derived "Packet" bulkyPacket "length" = .ok 65536 := by
  have hl := layered_of_resolve resolve_packetDocument
  have hs : packetSchema.structure? "Packet" = some packetStructure := rfl
  have hlength := Schema.derived_of_find hl hs
    (d := ⟨"length", .derived .two "payload" .byteLength⟩) (by decide) rfl bulkyPacket
  rw [hlength]
  refine (Encode.derive_byteLength (f := ⟨"payload", .variableBlob "length"⟩)
    (Schema.sound_of_find hl hs) (by decide)).2 ?_
  exact ⟨_, rfl, List.length_replicate⟩

/-- A packet is taken apart, does not depend on what it holds as the length of its parts, and is
refused if its payload is too long. -/
theorem derived_on_wire_packet :
    (∃ slice, packetSchema.Sliced "Packet" packetStructure sparsePacket sparsePacketBytes slice) ∧
      packetSchema.encode "Packet" (("total", .uint 99) :: sparsePacket) =
        .ok sparsePacketBytes ∧
      ∀ bs, packetSchema.encode "Packet" bulkyPacket ≠ .ok bs := by
  have hs : packetSchema.structure? "Packet" = some packetStructure := rfl
  obtain ⟨hslices, hsparse⟩ := Schema.derived_on_wire resolve_packetDocument hs sparsePacket
  obtain ⟨-, hbulky⟩ := Schema.derived_on_wire resolve_packetDocument hs bulkyPacket
  obtain ⟨hsame, -⟩ :=
    hsparse ⟨"total", .derived .two "parts" .groupSize⟩ (by decide) .two "parts" .groupSize rfl
  obtain ⟨-, hlarge⟩ :=
    hbulky ⟨"length", .derived .two "payload" .byteLength⟩ (by decide) .two "payload" .byteLength
      rfl
  refine ⟨hslices _ encode_sparsePacket, ?_, hlarge 65536 derived_bulkyPacket (by decide)⟩
  have hstored := (hsame (("total", .uint 99) :: sparsePacket) fun other hne =>
    if_neg (Ne.symm hne)).1
  rw [hstored, encode_sparsePacket]

end WireSchema
