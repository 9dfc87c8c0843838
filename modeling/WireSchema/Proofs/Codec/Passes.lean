import WireSchema.Proofs.Codec.Appending
import WireSchema.Proofs.Codec.Canonical

/-!
# The two passes of encoding

A value is measured and then written. The two passes look at different things: measuring takes the
word of the layout for what is the same for all values, and writing refuses what does not fit. They
agree on everything that is written.

* `Exact`: what was measured is the length of what was written, unless that is no machine word.
* `Schema.exact_of_write`: the passes agree on all structures.
* `Derivation.Tells`, `Encode.tells_of_derive`: what a derived number says of the field that it
  describes.
* `Schema.Written`: what there is to say of a value that is encoded.
* `Schema.passes_agree`: a value is written to a buffer if it can be encoded, and then all of this
  can be said of it and of the values in it.
-/

namespace WireSchema

/-- What was measured is the length of the bytes, unless that is not a machine word. -/
def Exact (measured : Except Error Nat) (bs : Bytes) : Prop :=
  measured = .ok bs.length ∨ 2 ^ 64 ≤ bs.length ∧ measured = .error (.abort .sizeOverflow)

namespace Exact

variable {measured : Except Error Nat} {bs : Bytes}

theorem of_length_eq {n : Nat} (h : bs.length = n) : Exact (.ok n) bs := .inl (congrArg _ h.symm)

/-- A size is never another than the length. -/
theorem length_eq {n : Nat} (h : Exact measured bs) (hn : measured = .ok n) : bs.length = n := by
  rcases h with h | ⟨-, h⟩
  · cases h.symm.trans hn
    rfl
  · cases h.symm.trans hn

theorem eq_ok (h : Exact measured bs) (hlen : bs.length < 2 ^ 64) : measured = .ok bs.length :=
  h.resolve_right fun hlong => absurd hlen (Nat.not_lt.2 hlong.1)

/-- The sizes of what is written one after the other add up to the length of all of it. -/
theorem addSizes {α : Type} {size : α → Except Error Nat} {xs : List α} {chunks : List Bytes}
    (h : List.Forall₂ (fun x bs => Exact (size x) bs) xs chunks) :
    Exact (addSizes size 0 xs) chunks.flatten := by
  -- the bytes of the items before stand in for the total so far
  suffices hfrom : ∀ before : Bytes,
      Exact (WireSchema.addSizes size before.length xs) (before ++ chunks.flatten) from hfrom []
  induction h with
  | nil =>
    intro before
    rw [List.flatten_nil, List.append_nil]
    exact .of_length_eq rfl
  | @cons x bs xs chunks hx _ ih =>
    intro before
    rw [List.flatten_cons, ← List.append_assoc, WireSchema.addSizes]
    rcases hx with hx | ⟨hlong, hx⟩
    · simp only [hx, bind, Except.bind]
      by_cases hsum : before.length + bs.length < 2 ^ 64
      · rw [addSize_eq_ok_iff.2 ⟨hsum, rfl⟩, ← List.length_append]
        exact ih (before ++ bs)
      · refine .inr ⟨?_, by rw [addSize, if_neg hsum]⟩
        simp only [List.length_append]
        omega
    · refine .inr ⟨?_, by simp only [hx, bind, Except.bind]⟩
      simp only [List.length_append]
      omega

end Exact

namespace Encode

variable {nested : String → Encoder} {s : Structure} {f : Field} {r : Record} {bs : Bytes}

/-- The structures that a kind of field refers to are measured as they are written. -/
def Measured (nested : String → Encoder) (kind : FieldKind) : Prop :=
  ∀ type ∈ kind.references, ∀ r bs, (nested type).write r = .ok bs →
    Exact ((nested type).size r) bs

theorem Measured.item {element : Element} {cardinality : Cardinality}
    (hn : Measured nested (.repeated element cardinality)) {x : Value}
    (h : Encode.item nested s f element x = .ok bs) :
    Exact (itemSize nested s f element x) bs := by
  cases element with
  | struct type =>
    obtain ⟨r, rfl, hr⟩ := item_struct.1 h
    exact hn type (List.mem_singleton_self type) r bs hr
  | scalar width =>
    obtain ⟨n, rfl, hn⟩ := item_scalar.1 h
    exact .of_length_eq (Width.length_of_encode hn)
  | blob size =>
    obtain ⟨data, rfl, hdata⟩ := item_blob.1 h
    exact .of_length_eq (length_of_fit hdata)

theorem Measured.field (hn : Measured nested f.kind) (h : fieldBytes nested s r f = .ok bs) :
    Exact (fieldSize nested s f (r.get? f.name)) bs := by
  cases hk : f.kind with
  | scalar width =>
    obtain ⟨n, -, hn⟩ := (fieldBytes_scalar hk).1 h
    simp only [fieldSize, hk]
    exact .of_length_eq (Width.length_of_encode hn)
  | fixedBlob size =>
    obtain ⟨data, -, hdata⟩ := (fieldBytes_fixedBlob hk).1 h
    simp only [fieldSize, hk]
    exact .of_length_eq (length_of_fit hdata)
  | variableBlob sizeField =>
    have hdata := (fieldBytes_variableBlob hk).1 h
    simp only [fieldSize, hk, hdata]
    exact .of_length_eq rfl
  | embedded type =>
    obtain ⟨inner, hinner, hbs⟩ := (fieldBytes_embedded hk).1 h
    rw [hk] at hn
    simp only [fieldSize, hk, hinner]
    exact hn type (List.mem_singleton_self type) inner bs hbs
  | repeated element cardinality =>
    obtain ⟨items, chunks, hitems, -, hchunks, rfl⟩ := (fieldBytes_repeated hk).1 h
    rw [hk] at hn
    simp only [fieldSize, hk, hitems]
    exact .addSizes (hchunks.imp fun x chunk hx => hn.item hx)
  | derived width content rule =>
    obtain ⟨n, -, hn⟩ := (fieldBytes_derived hk).1 h
    simp only [fieldSize, hk]
    exact .of_length_eq (Width.length_of_encode hn)

end Encode

/-! ### Derived numbers -/

/-- What a derived number says of the content and the bytes of the field that it describes. -/
def Derivation.Tells (rule : Derivation) (content : Option Value) (n : Nat) (bs : Bytes) : Prop :=
  match rule with
  | .byteLength => n = bs.length
  | .itemCount =>
    ∃ items, (content = some (.list items) ∨ content = none ∧ items = []) ∧ n = items.length
  | .groupSize => n = bs.length

/-- Only blobs are measured in bytes by their length. -/
theorem FieldKind.eq_variableBlob {kind : FieldKind} {sizeField : String}
    (h : kind.governor? = some (sizeField, .byteLength)) : kind = .variableBlob sizeField := by
  cases kind with
  | variableBlob name =>
    cases h
    rfl
  | repeated element cardinality => cases cardinality <;> cases h
  | _ => cases h

/-- Only groups are measured in items. -/
theorem FieldKind.exists_repeated {kind : FieldKind} {sizeField : String}
    (h : kind.governor? = some (sizeField, .itemCount)) :
    ∃ element, kind = .repeated element (.counted sizeField) := by
  cases kind with
  | repeated element cardinality =>
    cases cardinality with
    | counted name =>
      cases h
      exact ⟨element, rfl⟩
    | _ => cases h
  | _ => cases h

/-- Only groups are measured in bytes as a whole. -/
theorem FieldKind.exists_budgeted {kind : FieldKind} {sizeField : String}
    (h : kind.governor? = some (sizeField, .groupSize)) :
    ∃ element, kind = .repeated element (.budgeted sizeField) := by
  cases kind with
  | repeated element cardinality =>
    cases cardinality with
    | budgeted name =>
      cases h
      exact ⟨element, rfl⟩
    | _ => cases h
  | _ => cases h

/-- A derived number says so of what is written for the field that it describes. -/
theorem Encode.tells_of_derive {nested : String → Encoder} {below : List Structure}
    {s : Structure} (hs : s.Sound below) {c : Field} (hc : c ∈ s.fields) {sizeField : String}
    {rule : Derivation} (hgovernor : c.kind.governor? = some (sizeField, rule))
    (hn : Measured nested c.kind) {r : Record} {n : Nat} {bs : Bytes}
    (hderive : derive nested s r c.name rule = .ok n) (hbs : fieldBytes nested s r c = .ok bs) :
    rule.Tells (r.get? c.name) n bs := by
  cases rule with
  | byteLength =>
    obtain ⟨data, hdata, rfl⟩ := (derive_byteLength hs hc).1 hderive
    have hk := FieldKind.eq_variableBlob hgovernor
    rw [fieldBytes_variableBlob hk, hdata] at hbs
    cases hbs
    rfl
  | itemCount =>
    obtain ⟨items, hitems, rfl⟩ := (derive_itemCount hs hc).1 hderive
    exact ⟨items, (listContent_eq_ok_iff.1 hitems).symm, rfl⟩
  | groupSize =>
    rw [derive_groupSize hs hc] at hderive
    exact ((hn.field hbs).length_eq hderive).symm

namespace Schema

variable {schema : Schema} {name : String} {s : Structure} {r : Record} {bs : Bytes}

theorem fixedSize?_of_find (hs : schema.structure? name = some s) :
    (Element.struct name).fixedSize? schema.structures = s.fixedSize := by
  rw [Element.fixedSize?, show findStructure? schema.structures name = some s from hs,
    Option.bind_some]

/-- The passes agree on all structures. -/
theorem exact_of_write (h : Layered schema.structures) (hw : schema.write name r = .ok bs) :
    Exact (schema.encodedSize name r) bs := by
  induction name using h.induction generalizing r bs with
  | unknown name hs =>
    obtain ⟨s, hs'⟩ := exists_of_write hw
    cases hs.symm.trans hs'
  | step name s hs ih =>
    have hextent := h.measures name r bs hw
    rw [encodedSize_of_find h hs]
    rw [write_of_find h hs] at hw
    obtain ⟨chunks, hchunks, rfl⟩ := Encode.write_eq_ok_iff.1 hw
    unfold Encode.size
    cases hsize : s.fixedSize with
    | some n => exact .of_length_eq (hextent.length_eq n ((fixedSize?_of_find hs).trans hsize))
    | none =>
      have hfields : ∀ f ∈ s.fields, Encode.Measured schema.encoder f.kind :=
        fun f hf type ht r bs hw => ih f hf type ht hw
      refine .addSizes (((List.forall₂_and_left _ _).2 ⟨hfields, hchunks⟩).imp ?_)
      rintro f chunk ⟨hf, hchunk⟩
      exact hf.field hchunk

/-- What a structure refers to is measured as it is written. -/
theorem measured (h : Layered schema.structures) (kind : FieldKind) :
    Encode.Measured schema.encoder kind :=
  fun _ _ _ _ hw => exact_of_write h hw

/-- The value is too large for a buffer, according to its measured size. -/
def Oversized (schema : Schema) (name : String) (v : Record) : Prop :=
  schema.encodedSize name v = .error (.abort .sizeOverflow) ∨
    ∃ n, schema.encodedSize name v = .ok n ∧ 2 ^ 63 ≤ n

theorem not_oversized {n : Nat} (hsize : schema.encodedSize name r = .ok n) (hlt : n < 2 ^ 63) :
    ¬schema.Oversized name r := by
  rintro (hover | ⟨m, hm, hlarge⟩)
  · cases hsize.symm.trans hover
  · cases hsize.symm.trans hm
    exact absurd hlt (Nat.not_lt.2 hlarge)

/-- What is written is short enough for a buffer, unless it was measured to be too large. -/
theorem length_lt_of_write (h : Layered schema.structures)
    (hsize : ¬schema.Oversized name r) (hw : schema.write name r = .ok bs) :
    bs.length < 2 ^ 63 := by
  by_contra hlong
  rcases exact_of_write h hw with hexact | ⟨-, hover⟩
  · exact hsize (.inr ⟨_, hexact, Nat.le_of_not_lt hlong⟩)
  · exact hsize (.inl hover)

/-- A value that is not too large is encoded if it can be written. -/
theorem encode_eq_ok_iff_write (h : Layered schema.structures)
    (hsize : ¬schema.Oversized name r) :
    schema.encode name r = .ok bs ↔ schema.write name r = .ok bs := by
  rw [encode_eq_ok_iff h, and_iff_left_iff_imp]
  exact length_lt_of_write h hsize

/-- What the encoder holds to be true of the two passes is true. -/
theorem checkMeasured_of_write (h : Layered schema.structures) {n : Nat}
    (hsize : schema.encodedSize name r = .ok n) (hw : schema.write name r = .ok bs) :
    checkMeasured n bs = .ok bs :=
  if_pos ((exact_of_write h hw).length_eq hsize)

/-- What a derived field is written as, and what it says of the field that it describes. -/
theorem tells_of_write (h : Layered schema.structures) (hs : schema.structure? name = some s)
    (hw : schema.write name r = .ok bs) {d : Field} (hd : d ∈ s.fields) {width : Width}
    {content : String} {rule : Derivation} (hk : d.kind = .derived width content rule) :
    ∃ c, [d, c].Sublist s.fields ∧ c.name = content ∧ c.kind.governor? = some (d.name, rule) ∧
      ∃ n described, schema.derived name r d.name = .ok n ∧ n ≤ width.maxValue ∧
        Encode.fieldBytes schema.encoder s r d = .ok (leBytes width.bytes n) ∧
        Encode.fieldBytes schema.encoder s r c = .ok described ∧ described <:+: bs ∧
        rule.Tells (r.get? c.name) n described := by
  have hsound := sound_of_find h hs
  obtain ⟨c, hdc, rfl, hgovernor⟩ := hsound.wired.governs d hd width content rule hk
  have hc : c ∈ s.fields := hdc.subset (by simp)
  obtain ⟨size, -, hsize⟩ := fieldBytes_of_write h hs hw hd
  obtain ⟨described, hinside, hdescribed⟩ := fieldBytes_of_write h hs hw hc
  obtain ⟨n, hderive, hn⟩ := (Encode.fieldBytes_derived hk).1 hsize
  obtain ⟨hle, rfl⟩ := Width.encode_eq_ok_iff.1 hn
  have hderived : schema.derived name r d.name = .ok n := by
    rw [derived_of_find h hs hd hk, hderive]
  exact ⟨c, hdc, rfl, hgovernor, n, described, hderived, hle, hsize, hdescribed, hinside,
    Encode.tells_of_derive hsound hc hgovernor (measured h c.kind) hderive hdescribed⟩

/-- What there is to say of a value that is encoded to the given bytes. -/
structure Written (schema : Schema) (name : String) (v : Record) (bs : Bytes) : Prop where
  encode_eq : schema.encode name v = .ok bs
  /-- It can be written to any buffer, which is extended by its encoding. -/
  append_eq : ∀ buffer, schema.append name v buffer = .ok () (buffer ++ bs)
  size_eq : schema.encodedSize name v = .ok bs.length
  fixedSize_eq : ∀ s, schema.structure? name = some s → ∀ k, s.fixedSize = some k → bs.length = k
  /-- Every group of it is measured as it is written. -/
  groups : ∀ s, schema.structure? name = some s → ∀ f ∈ s.fields, ∀ element cardinality,
    f.kind = .repeated element cardinality → ∃ group, group <:+: bs ∧
      Encode.fieldBytes schema.encoder s v f = .ok group ∧
      Encode.fieldSize schema.encoder s f (v.get? f.name) = .ok group.length
  /-- The size of a group is written as the number of bytes that the group is written with. -/
  groupSizes : ∀ s, schema.structure? name = some s → ∀ d ∈ s.fields, ∀ width content,
    d.kind = .derived width content .groupSize → ∃ f ∈ s.fields, f.name = content ∧
      ∃ group, group <:+: bs ∧ Encode.fieldBytes schema.encoder s v f = .ok group ∧
        schema.derived name v d.name = .ok group.length ∧
        Encode.fieldBytes schema.encoder s v d = .ok (leBytes width.bytes group.length)

/-- A value that is encoded can be written in all ways. -/
theorem written_of_encode (h : Layered schema.structures) (he : schema.encode name r = .ok bs) :
    schema.Written name r bs := by
  obtain ⟨hw, hlen⟩ := (encode_eq_ok_iff h).1 he
  constructor
  case encode_eq => exact he
  case append_eq => exact (appends_write h name r).ok bs hw
  case size_eq => exact encodedSize_of_write h hw (by omega)
  case fixedSize_eq =>
    intro s hs k hk
    exact (h.measures name r bs hw).length_eq k ((fixedSize?_of_find hs).trans hk)
  case groups =>
    intro s hs f hf element cardinality hk
    obtain ⟨group, hinside, hgroup⟩ := fieldBytes_of_write h hs hw hf
    have hshorter := hinside.length_le
    exact ⟨group, hinside, hgroup, ((measured h f.kind).field hgroup).eq_ok (by omega)⟩
  case groupSizes =>
    intro s hs d hd width content hk
    obtain ⟨f, hdf, hname, -, n, group, hderived, -, hsize, hgroup, hinside, htells⟩ :=
      tells_of_write h hs hw hd hk
    cases htells
    exact ⟨f, hdf.subset (by simp), hname, group, hinside, hgroup, hderived, hsize⟩

/-- The two passes agree. What was measured is what is written, so an encoding always has its
measured size. A value that was not measured to be too large can be written to a buffer just if it
can be encoded, and the buffer is then extended by its encoding; and what there is to say of the
sizes in a value that is encoded holds of it and of all values in it. -/
theorem passes_agree {d : Document} (h : Schema.resolve d = .ok schema) (name : String)
    (v : Record) :
    (∀ n bs, schema.encodedSize name v = .ok n → schema.write name v = .ok bs →
      checkMeasured n bs = .ok bs) ∧
    (¬schema.Oversized name v → ∀ buffer out, schema.append name v buffer = .ok () out ↔
      ∃ bs, schema.encode name v = .ok bs ∧ out = buffer ++ bs) ∧
    ∀ bs, schema.encode name v = .ok bs → schema.Written name v bs ∧
      ∀ type r, schema.Reaches (name, v) (type, r) →
        ∃ part, part <:+: bs ∧ schema.Written type r part := by
  have hl := layered_of_resolve h
  refine ⟨fun n bs => checkMeasured_of_write hl, fun hsize buffer out => ?_, fun bs he => ?_⟩
  · constructor
    · intro happend
      obtain ⟨bs, hw, rfl⟩ := (appends_write hl name v).exists_of_ok happend
      exact ⟨bs, (encode_eq_ok_iff_write hl hsize).2 hw, rfl⟩
    · rintro ⟨bs, he, rfl⟩
      exact (written_of_encode hl he).append_eq buffer
  · refine ⟨written_of_encode hl he, fun type r hr => ?_⟩
    obtain ⟨hw, hlen⟩ := (encode_eq_ok_iff hl).1 he
    obtain ⟨part, hpart, hw⟩ := write_of_reaches hl hr hw
    have hshorter := hpart.length_le
    exact ⟨part, hpart, written_of_encode hl ((encode_eq_ok_iff hl).2 ⟨hw, by omega⟩)⟩

end Schema

/-! ### An example -/

/-- A packet is appended to a buffer that holds another byte. -/
theorem append_sparsePacket :
    ¬packetSchema.Oversized "Packet" sparsePacket ∧
      packetSchema.append "Packet" sparsePacket [255] = .ok () (255 :: sparsePacketBytes) ∧
      packetSchema.Written "Packet" sparsePacket sparsePacketBytes := by
  have hsize : ¬packetSchema.Oversized "Packet" sparsePacket :=
    Schema.not_oversized (n := 17) (by decide +kernel) (by decide)
  obtain ⟨-, happend, hwritten⟩ :=
    Schema.passes_agree resolve_packetDocument "Packet" sparsePacket
  exact ⟨hsize, (happend hsize [255] _).2 ⟨_, encode_sparsePacket, rfl⟩,
    (hwritten _ encode_sparsePacket).1⟩

end WireSchema
