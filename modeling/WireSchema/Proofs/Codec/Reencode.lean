import WireSchema.Proofs.Codec.Canonical
import WireSchema.Proofs.Codec.Parts

/-!
# Writing what was read

Whatever a reader accepts, and however it was come by, is written again byte for byte. The derived
fields are no part of what was read, so each of them has to follow from its content: a length that
was read is that of the blob that was taken, a count that of the items, and a budget is used up by
the items exactly.

* `Reencode.Reproduces`: encoders that give back the bytes that readers took.
* `Schema.encode_of_read`: it holds of all structures of all resolved schemas, so no two byte
  strings are read as the same value.
-/

namespace WireSchema

namespace Reencode

/-- Encoders that give back the bytes that readers took, as long as these can be counted by a
machine word. -/
def Reproduces (read : String → Reader Record) (nested : String → Encoder) : Prop :=
  ∀ type r c c', c.rest.length < 2 ^ 64 → read type c = .ok r c' →
    ∃ bs, c.Passes bs c' ∧ (nested type).write r = .ok bs

section

variable {read : String → Reader Record} {nested : String → Encoder} {limits : Limits}
  {below : List Structure} {s : Structure} {f : Field} {r : Record} {frame : Frame}
  {c c' : Cursor}

/-! ### Items -/

theorem Reproduces.writes_item (hr : Reproduces read nested) {element : Element} {x : Value}
    (h : Decode.element read element c = .ok x c') (hc : c.rest.length < 2 ^ 64) :
    ∃ bs, c.Passes bs c' ∧ Encode.item nested s f element x = .ok bs := by
  cases element with
  | struct type =>
    obtain ⟨r, hread, rfl⟩ := Reader.map_eq_ok_iff.1 h
    obtain ⟨bs, hpass, hw⟩ := hr type r c c' hc hread
    exact ⟨bs, hpass, Encode.item_struct.2 ⟨r, rfl, hw⟩⟩
  | scalar width =>
    obtain ⟨n, hread, rfl⟩ := Reader.map_eq_ok_iff.1 h
    obtain ⟨bs, hn, hpass⟩ := Reader.scalar_eq_ok_iff.1 hread
    exact ⟨bs, hpass, Encode.item_scalar.2 ⟨n, rfl, hn⟩⟩
  | blob size =>
    obtain ⟨data, hread, rfl⟩ := Reader.map_eq_ok_iff.1 h
    obtain ⟨hlen, hpass⟩ := Reader.take_eq_ok_iff.1 hread
    exact ⟨data, hpass, Encode.item_blob.2 ⟨data, rfl, fit_self hlen⟩⟩

/-- The items of a run are written to the bytes of the run. -/
theorem Reproduces.writes_items (hr : Reproduces read nested) {element : Element}
    {readItem : Nat → Reader Value} {items : List Value} (h : Group.Run readItem 0 c items c')
    (hitem : ∀ k x c c', readItem k c = .ok x c' → Decode.element read element c = .ok x c')
    (hc : c.rest.length < 2 ^ 64) :
    ∃ chunks, List.Forall₂ (fun x chunk => Encode.item nested s f element x = .ok chunk)
      items chunks ∧ c.Passes chunks.flatten c' := by
  have hread : ∀ k x c c', c.rest.length < 2 ^ 64 → readItem k c = .ok x c' →
      ∃ bs, c.Passes bs c' ∧ Encode.item nested s f element x = .ok bs :=
    fun k x c c' hc hx => hr.writes_item (hitem k x c c' hx) hc
  obtain ⟨chunks, hchunks, hpass⟩ := h.chunks hread hc
  exact ⟨chunks, hchunks.imp fun x chunk hx => hx.1, hpass⟩

/-! ### Groups -/

/-- A group is written to the bytes that it was read from, and the count or budget that it was read
with is the one that it has. -/
theorem Reproduces.writes_group (hr : Reproduces read nested) (hm : Encode.Measures below nested)
    (hforward : ∀ type, Reader.Forward (read type)) (hs : s.Sound below) (hf : f ∈ s.fields)
    {element : Element} {cardinality : Cardinality} (hk : f.kind = .repeated element cardinality)
    {items : List Value}
    (h : Decode.group read limits s frame element cardinality c = .ok items c')
    (hget : r.get? f.name = some (.list items)) (hc : c.rest.length < 2 ^ 64) :
    ∃ bs, c.Passes bs c' ∧ Encode.fieldBytes nested s r f = .ok bs ∧
      Governed nested s r frame f := by
  have hitems : Encode.listContent s f (r.get? f.name) = .ok items :=
    Encode.listContent_eq_ok_iff.2 (.inr hget)
  obtain ⟨readItem, hrun, hitem, hsized⟩ := Decode.exists_run_of_group hforward h
  obtain ⟨chunks, hchunks, hpass⟩ := hr.writes_items hrun hitem hc
  refine ⟨chunks.flatten, hpass, ?_, ?_⟩
  · refine (Encode.fieldBytes_repeated hk).2 ⟨items, chunks, hitems, ?_, hchunks, rfl⟩
    rintro count rfl
    exact hsized
  unfold Governed
  rw [hk]
  intro sizeField rule hgov
  cases cardinality with
  | fixed count => cases hgov
  | counted =>
    cases hgov
    obtain ⟨n, hlookup, hcount⟩ := hsized
    exact ⟨n, hlookup, (Encode.derive_itemCount hs hf).2 ⟨items, hitems, hcount⟩⟩
  | budgeted =>
    cases hgov
    obtain ⟨n, hlookup, hoffset⟩ := hsized
    refine ⟨n, hlookup, ?_⟩
    -- the items use up the budget, and their length is what is measured
    have hmeasured := (hm.items hchunks).measured_eq (Nat.lt_of_le_of_lt hpass.length_le hc)
    have hbudget : chunks.flatten.length = n.toNat := by
      have := hpass.offset
      omega
    rw [Encode.derive_groupSize hs hf, ← hbudget]
    simp only [Encode.fieldSize, hk, hitems, bind, Except.bind, hmeasured]

/-! ### Fields -/

/-- A content field is written to the bytes that it was read from, and the size that it was read
with is the one that it has. -/
theorem Reproduces.writes_content (hr : Reproduces read nested)
    (hm : Encode.Measures below nested) (hforward : ∀ type, Reader.Forward (read type))
    (hs : s.Sound below) (hf : f ∈ s.fields) (hcontent : f.isContent) {v : Value}
    (h : Decode.content read limits s frame f.kind c = .ok v c')
    (hget : r.get? f.name = some v) (hc : c.rest.length < 2 ^ 64) :
    ∃ bs, c.Passes bs c' ∧ Encode.fieldBytes nested s r f = .ok bs ∧
      Governed nested s r frame f := by
  unfold Governed
  cases hk : f.kind with
  | derived => simp [Field.isContent, hk] at hcontent
  | scalar width =>
    rw [hk] at h
    obtain ⟨n, hread, rfl⟩ := Reader.map_eq_ok_iff.1 h
    obtain ⟨bs, hn, hpass⟩ := Reader.scalar_eq_ok_iff.1 hread
    refine ⟨bs, hpass, (Encode.fieldBytes_scalar hk).2 ⟨n, ?_, hn⟩, ?_⟩
    · exact Encode.scalarContent_eq_ok_iff.2 (.inr hget)
    · rintro sizeField rule ⟨⟩
  | fixedBlob size =>
    rw [hk] at h
    obtain ⟨data, hread, rfl⟩ := Reader.map_eq_ok_iff.1 h
    obtain ⟨hlen, hpass⟩ := Reader.take_eq_ok_iff.1 hread
    refine ⟨data, hpass, (Encode.fieldBytes_fixedBlob hk).2 ⟨data, ?_, fit_self hlen⟩, ?_⟩
    · exact Encode.bytesContent_eq_ok_iff.2 (.inr hget)
    · rintro sizeField rule ⟨⟩
  | variableBlob sizeField =>
    rw [hk] at h
    obtain ⟨length, c₁, hgov, h⟩ := Reader.bind_eq_ok_iff.1 h
    obtain ⟨n, hlookup, rfl, rfl⟩ := Decode.governing_eq_ok_iff.1 hgov
    obtain ⟨_, c₂, hlim, h⟩ := Reader.bind_eq_ok_iff.1 h
    obtain ⟨_, rfl⟩ := Decode.limited_eq_ok_iff.1 hlim
    obtain ⟨data, hread, rfl⟩ := Reader.map_eq_ok_iff.1 h
    obtain ⟨hlen, hpass⟩ := Reader.take_eq_ok_iff.1 hread
    have hdata : Encode.bytesContent s f (r.get? f.name) = .ok data :=
      Encode.bytesContent_eq_ok_iff.2 (.inr hget)
    refine ⟨data, hpass, (Encode.fieldBytes_variableBlob hk).2 hdata, ?_⟩
    rintro sizeField' rule heq
    cases heq
    exact ⟨n, hlookup, (Encode.derive_byteLength hs hf).2 ⟨data, hdata, hlen⟩⟩
  | embedded type =>
    rw [hk] at h
    obtain ⟨inner, hread, rfl⟩ := Reader.map_eq_ok_iff.1 h
    obtain ⟨bs, hpass, hw⟩ := hr type inner c c' hc hread
    refine ⟨bs, hpass, (Encode.fieldBytes_embedded hk).2 ⟨inner, ?_, hw⟩, ?_⟩
    · exact Encode.recordContent_eq_ok_iff.2 (.inr hget)
    · rintro sizeField rule ⟨⟩
  | repeated element cardinality =>
    rw [hk] at h
    obtain ⟨items, hread, rfl⟩ := Reader.map_eq_ok_iff.1 h
    rw [← hk]
    exact hr.writes_group hm hforward hs hf hk hread hget hc

/-- The fields of a structure are written to the bytes that they were read from. A size that was
read before these fields is the one that the field has which it describes. -/
theorem Reproduces.writes_fields (hr : Reproduces read nested) (hm : Encode.Measures below nested)
    (hforward : ∀ type, Reader.Forward (read type)) (hs : s.Sound below) {pre post : List Field}
    (hsplit : s.fields = pre ++ post) {out : Record}
    (h : Decode.fields read limits s post frame c = .ok out c')
    (hout : ∀ p ∈ out, r.get? p.1 = some p.2) (hc : c.rest.length < 2 ^ 64) :
    (∃ chunks,
      List.Forall₂ (fun f chunk => Encode.fieldBytes nested s r f = .ok chunk) post chunks ∧
      c.Passes chunks.flatten c') ∧
    ∀ f ∈ post, ∀ sizeField rule, f.kind.governor? = some (sizeField, rule) →
      sizeField ∉ post.map (·.name) →
        ∃ n, frame.lookup sizeField = some n ∧
          Encode.derive nested s r f.name rule = .ok n.toNat := by
  induction post generalizing pre frame c out with
  | nil =>
    obtain ⟨-, rfl⟩ := Reader.pure_eq_ok_iff.1 h
    exact ⟨⟨[], .nil, .refl c⟩, nofun⟩
  | cons f post ih =>
    have hsplit' : s.fields = (pre ++ [f]) ++ post := by
      rw [hsplit, List.append_assoc, List.singleton_append]
    rcases f.isContent_or_derived with hcontent | ⟨width, content, rule, hk⟩
    · rw [Decode.fields_content hcontent] at h
      obtain ⟨v, c₁, hv, h₁⟩ := Reader.bind_eq_ok_iff.1 h
      obtain ⟨others, hothers, rfl⟩ := Reader.map_eq_ok_iff.1 h₁
      have hf : f ∈ s.fields := by rw [hsplit]; simp
      have hget : r.get? f.name = some v := hout (f.name, v) List.mem_cons_self
      obtain ⟨bs, hfirst, hbytes, hgov⟩ :=
        hr.writes_content hm hforward hs hf hcontent hv hget hc
      obtain ⟨⟨chunks, hchunks, hrest⟩, hgovs⟩ :=
        ih hsplit' hothers (fun p hp => hout p (List.mem_cons_of_mem _ hp))
          (Nat.lt_of_le_of_lt hfirst.rest_length_le hc)
      refine ⟨⟨bs :: chunks, .cons hbytes hchunks, hfirst.trans hrest⟩, ?_⟩
      intro g hg sizeField rule hk hnot
      rw [List.map_cons, List.mem_cons, not_or] at hnot
      rcases List.mem_cons.1 hg with rfl | hg
      · exact hgov sizeField rule hk
      · exact hgovs g hg sizeField rule hk hnot.2
    · rw [Decode.fields_derived hk] at h
      obtain ⟨n, c₁, hn, h⟩ := Reader.bind_eq_ok_iff.1 h
      obtain ⟨bs, hencode, hfirst⟩ := Reader.scalar_eq_ok_iff.1 hn
      obtain ⟨⟨chunks, hchunks, hrest⟩, hgovs⟩ :=
        ih hsplit' h hout (Nat.lt_of_le_of_lt hfirst.rest_length_le hc)
      have hnot : f.name ∉ post.map (·.name) := by
        have hnd := hs.distinct
        rw [hsplit, List.map_append, List.map_cons] at hnd
        exact (List.nodup_cons.1 (List.nodup_append.1 hnd).2.1).1
      -- the field that this one describes comes later, and was read with this number
      obtain ⟨g, hg, hname, hgov⟩ := hs.governed_mem hsplit hk
      obtain ⟨m, hlookup, hderive⟩ := hgovs g hg f.name rule hgov hnot
      rw [List.lookup_cons_self, Option.some.injEq] at hlookup
      rw [hname, ← hlookup] at hderive
      have hbytes := (Encode.fieldBytes_derived hk).2 ⟨n.toNat, hderive, hencode⟩
      refine ⟨⟨bs :: chunks, .cons hbytes hchunks, hfirst.trans hrest⟩, ?_⟩
      intro g hg sizeField rule' hk' hnot'
      rw [List.map_cons, List.mem_cons, not_or] at hnot'
      rcases List.mem_cons.1 hg with rfl | hg
      · rw [hk] at hk'
        cases hk'
      · obtain ⟨m, hlookup, hderive⟩ := hgovs g hg sizeField rule' hk' hnot'.2
        rw [List.lookup_cons, beq_false_of_ne hnot'.1] at hlookup
        exact ⟨m, hlookup, hderive⟩

/-! ### Structures -/

/-- A structure is written to the bytes that it was read from, if the structures that it refers to
are. -/
theorem Reproduces.writes_structure (hr : Reproduces read nested)
    (hm : Encode.Measures below nested) (hforward : ∀ type, Reader.Forward (read type))
    (hs : s.Sound below) (h : Decode.structure? limits read s c = .ok r c')
    (hc : c.rest.length < 2 ^ 64) :
    ∃ bs, c.Passes bs c' ∧ Encode.write nested s r = .ok bs := by
  have hnodup : (Record.names r).Nodup := by
    rw [Decode.names_of_fields h]
    exact hs.distinct.sublist (List.filter_sublist.map _)
  have hget : ∀ p ∈ r, r.get? p.1 = some p.2 := fun p hp => Record.get?_of_mem hnodup hp
  obtain ⟨⟨chunks, hchunks, hpass⟩, -⟩ :=
    hr.writes_fields hm hforward hs (List.nil_append _).symm h hget hc
  exact ⟨chunks.flatten, hpass, Encode.write_eq_ok_iff.2 ⟨chunks, hchunks, rfl⟩⟩

end

end Reencode

/-- All structures of a layered schema are written as they were read. -/
theorem Layered.reproduces {structures : List Structure} (h : Layered structures)
    (limits : Limits) :
    Reencode.Reproduces
      (interpret (fun name => throw (.malformed (.unknownStructure name)))
        (Decode.structure? limits) structures)
      (interpret Encoder.unknown Encode.encoder structures) := by
  induction h with
  | nil =>
    intro type r c c' hc hread
    cases hread
  | @cons s below _ hs hbelow ih =>
    intro type r c c' hc hread
    by_cases hname : s.name = type
    · subst hname
      rw [interpret_head] at hread ⊢
      exact ih.writes_structure hbelow.measures (forward_interpret limits below) hs hread hc
    · rw [interpret_tail _ _ _ hname] at hread ⊢
      exact ih type r c c' hc hread

namespace Schema

/-- What is read is written to the bytes that were taken. -/
theorem encode_of_passes {schema : Schema} (h : Layered schema.structures) {limits : Limits}
    {name : String} {c c' : Cursor} {r : Record} (hc : c.rest.length < 2 ^ 63)
    (hread : schema.read limits name c = .ok r c') :
    ∃ bs, c.Passes bs c' ∧ schema.encode name r = .ok bs ∧
      schema.encodedSize name r = .ok bs.length := by
  obtain ⟨bs, hpass, hw⟩ := h.reproduces limits name r c c' (by omega) hread
  have hlen : bs.length < 2 ^ 63 := Nat.lt_of_le_of_lt hpass.length_le hc
  refine ⟨bs, hpass, (encode_eq_ok_iff h).2 ⟨hw, hlen⟩, ?_⟩
  exact encodedSize_of_write h hw (by omega)

/-- What a whole input is read as is written to the input. -/
theorem encode_of_decode {schema : Schema} (h : Layered schema.structures) {limits : Limits}
    {name : String} {input : Bytes} {r : Record} (hinput : input.length < 2 ^ 63)
    (hread : schema.decode limits name input = .ok r) : schema.encode name r = .ok input := by
  obtain ⟨offset, hread⟩ := Reader.decode_eq_ok_iff.1 hread
  obtain ⟨bs, hpass, hencode, -⟩ := encode_of_passes h hinput hread
  have hbs : input = bs := hpass.rest.trans (List.append_nil bs)
  rw [hbs]
  exact hencode

/-- What is read somewhere in an input is written to exactly the bytes that were taken, which are
measured rightly, and so no two inputs are read as the same value. -/
theorem encode_of_read {d : Document} {schema : Schema} (h : Schema.resolve d = .ok schema)
    (name : String) :
    (∀ limits (input : Bytes) start stop rest r, input.length < 2 ^ 63 →
      schema.read limits name ⟨start, input.drop start⟩ = .ok r ⟨stop, rest⟩ →
        start ≤ stop ∧ rest = input.drop stop ∧
          schema.encode name r = .ok ((input.drop start).take (stop - start)) ∧
          schema.encodedSize name r = .ok (stop - start)) ∧
    (∀ limits limits' (input input' : Bytes) r, input.length < 2 ^ 63 → input'.length < 2 ^ 63 →
      schema.decode limits name input = .ok r → schema.decode limits' name input' = .ok r →
        input = input') := by
  have hl := layered_of_resolve h
  constructor
  · intro limits input start stop rest r hinput hread
    have hc : (input.drop start).length < 2 ^ 63 := by
      rw [List.length_drop]
      omega
    obtain ⟨bs, hpass, hencode, hsize⟩ := encode_of_passes hl hc hread
    have hrest : input.drop start = bs ++ rest := hpass.rest
    have hstop : stop = start + bs.length := hpass.offset
    have hdiff : stop - start = bs.length := by omega
    refine ⟨by omega, ?_, ?_, ?_⟩
    · rw [hstop, ← List.drop_drop, hrest, List.drop_left]
    · rw [hdiff, hrest, List.take_left]
      exact hencode
    · rw [hdiff]
      exact hsize
  · intro limits limits' input input' r hinput hinput' hread hread'
    have hencode := encode_of_decode hl hinput hread
    have hencode' := encode_of_decode hl hinput' hread'
    exact Except.ok.inj (hencode.symm.trans hencode')

end Schema

/-! ### An example -/

/-- A packet between other bytes. -/
def packetInput : Bytes := 255 :: sparsePacketBytes ++ [5]

/-- Limits that the packet just keeps to. -/
def packetLimits : Limits := ⟨2, 0⟩

theorem read_packetInput :
    packetSchema.read packetLimits "Packet" ⟨1, packetInput.drop 1⟩ = .ok fullPacket ⟨18, [5]⟩ :=
  rfl

theorem decode_sparsePacketBytes :
    packetSchema.decode {} "Packet" sparsePacketBytes = .ok fullPacket :=
  rfl

/-- The packet is written to the bytes between the others, and no other bytes are read as it. -/
theorem encode_of_read_packetInput :
    Schema.resolve packetDocument = .ok packetSchema ∧
      packetSchema.read packetLimits "Packet" ⟨1, packetInput.drop 1⟩ =
        .ok fullPacket ⟨18, [5]⟩ ∧
      packetSchema.encode "Packet" fullPacket = .ok sparsePacketBytes ∧
      packetSchema.encodedSize "Packet" fullPacket = .ok 17 ∧
      ∀ input : Bytes, input.length < 2 ^ 63 →
        packetSchema.decode packetLimits "Packet" input = .ok fullPacket →
          input = sparsePacketBytes := by
  obtain ⟨hread, hunique⟩ := Schema.encode_of_read resolve_packetDocument "Packet"
  obtain ⟨-, -, hencode, hsize⟩ :=
    hread packetLimits packetInput 1 18 [5] fullPacket (by decide) read_packetInput
  refine ⟨resolve_packetDocument, read_packetInput, hencode, hsize, ?_⟩
  intro input hlen hdecode
  exact hunique packetLimits {} input sparsePacketBytes fullPacket hlen (by decide) hdecode
    decode_sparsePacketBytes

end WireSchema
