import WireSchema.Proofs.Codec.Length
import WireSchema.Proofs.Codec.Reading
import WireSchema.Proofs.Resolve.Closure

/-!
# Reading what was written

A value may lack fields, hold fields that its structure does not have, and hold blobs that are
shorter than their fields. None of this is left in its encoding, and what is read back is the
canonical form of the value: exactly the content fields, in wire order, each filled up to its width.

* `Schema.canonical` is the canonical form.
* `Canonical.Restores`: readers that give back the canonical form of what encoders write. It is
  carried from the items to the groups, from the fields to the structures, and from each layer of a
  schema to the next.
* `Schema.read_of_encode`: it holds of all structures of all resolved schemas.
-/

namespace WireSchema

namespace Canonical

/-- The content that an absent field stands for. It is filled up with zero bytes, and nested
structures with what their fields stand for, like any other content. -/
def absent : FieldKind → Value
  | .scalar _ => .uint 0
  | .fixedBlob _ => .bytes []
  | .variableBlob _ => .bytes []
  | .embedded _ => .record []
  | .repeated .. => .list []
  -- a derived field is no content
  | .derived .. => .uint 0

/-- The byte string filled up to `size` bytes with zero bytes on the left. -/
def fill (size : Nat) (data : Bytes) : Bytes := List.replicate (size - data.length) 0 ++ data

/-- The canonical form of an item, from that of the structures. -/
def item (nested : String → Record → Record) : Element → Value → Value
  | .struct type, .record r => .record (nested type r)
  | .blob size, .bytes data => .bytes (fill size data)
  | _, other => other

/-- The canonical form of the content of a field, from that of the structures. -/
def content (nested : String → Record → Record) : FieldKind → Value → Value
  | .fixedBlob size, .bytes data => .bytes (fill size data)
  | .embedded type, .record r => .record (nested type r)
  | .repeated element _, .list items => .list (items.map (item nested element))
  | _, other => other

/-- The canonical form of a field. -/
def field (nested : String → Record → Record) (r : Record) (f : Field) : String × Value :=
  (f.name, content nested f.kind ((r.get? f.name).getD (absent f.kind)))

/-- The canonical form of some fields of a value: the content fields among them, in order. -/
def fields (nested : String → Record → Record) (r : Record) (fs : List Field) : Record :=
  (fs.filter (·.isContent)).map (field nested r)

/-- The canonical form of a value of a structure. -/
def record (nested : String → Record → Record) (s : Structure) (r : Record) : Record :=
  fields nested r s.fields

end Canonical

/-- The canonical form of a value of the structure `name`. -/
def Schema.canonical (schema : Schema) (name : String) (r : Record) : Record :=
  interpret (fun _ r => r) Canonical.record schema.structures name r

/-- The frame holds the size of the field, if it has one, and it is the size that the value gives
it. -/
def Governed (nested : String → Encoder) (s : Structure) (r : Record) (frame : Frame)
    (f : Field) : Prop :=
  ∀ sizeField rule, f.kind.governor? = some (sizeField, rule) →
    ∃ n, frame.lookup sizeField = some n ∧ Encode.derive nested s r f.name rule = .ok n.toNat

namespace Canonical

/-- Readers that give back the canonical form of what encoders write. -/
def Restores (read : String → Reader Record) (nested : String → Encoder)
    (canonical : String → Record → Record) : Prop :=
  ∀ type r bs, (nested type).write r = .ok bs → bs.length < 2 ^ 64 →
    Reader.Reads (read type) bs (canonical type r)

/-- The frame holds the derived fields among those given. -/
def Holds (nested : String → Encoder) (s : Structure) (r : Record) (fs : List Field)
    (frame : Frame) : Prop :=
  ∀ d ∈ fs, ∀ width content rule, d.kind = .derived width content rule →
    ∃ n, frame.lookup d.name = some n ∧ Encode.derive nested s r content rule = .ok n.toNat

section

variable {read : String → Reader Record} {nested : String → Encoder}
  {canonical : String → Record → Record} {below : List Structure} {s : Structure} {f : Field}
  {r : Record} {bs : Bytes} {frame : Frame}

theorem length_of_fill {data : Bytes} {size : Nat} (h : fit data size = .ok bs) :
    bs = fill size data ∧ bs.length = size := by
  obtain ⟨-, -, hbs⟩ := fit_eq_ok_iff.1 h
  exact ⟨hbs, length_of_fit h⟩

/-- A number that fits a width is read back. -/
theorem reads_scalar {width : Width} {n : UInt64} (h : width.encode n.toNat = .ok bs) :
    Reader.Reads (do return Value.uint (← Reader.scalar width)) bs (.uint n) :=
  (Reader.reads_scalar h).map _

/-- A blob that was filled up is read back so. -/
theorem reads_blob {data : Bytes} {size : Nat} (h : fit data size = .ok bs) :
    Reader.Reads (do return Value.bytes (← Reader.take size)) bs (.bytes (fill size data)) := by
  obtain ⟨hbs, hlen⟩ := length_of_fill h
  rw [← hbs, ← hlen]
  exact (Reader.reads_take bs).map _

/-! ### Items -/

theorem Restores.reads_item (hr : Restores read nested canonical) {element : Element} {x : Value}
    (h : Encode.item nested s f element x = .ok bs) (hlen : bs.length < 2 ^ 64) :
    Reader.Reads (Decode.element read element) bs (item canonical element x) := by
  cases element with
  | struct type =>
    obtain ⟨r, rfl, hw⟩ := Encode.item_struct.1 h
    exact (hr type r bs hw hlen).map _
  | scalar width =>
    obtain ⟨n, rfl, hn⟩ := Encode.item_scalar.1 h
    exact reads_scalar hn
  | blob size =>
    obtain ⟨data, rfl, hdata⟩ := Encode.item_blob.1 h
    exact reads_blob hdata

/-- The items of a group are read back one by one, and none of them is empty. -/
theorem Restores.reads_items (hr : Restores read nested canonical)
    (hm : Encode.Measures below nested)
    {element : Element} (hpos : 0 < element.minSize below) {items : List Value}
    {chunks : List Bytes}
    (h : List.Forall₂ (fun x chunk => Encode.item nested s f element x = .ok chunk) items chunks)
    (hlen : chunks.flatten.length < 2 ^ 64) :
    List.Forall₂ (fun a chunk => chunk ≠ [] ∧ Reader.Reads (Decode.element read element) chunk a)
      (items.map (item canonical element)) chunks := by
  induction h with
  | nil => exact .nil
  | @cons x chunk items chunks hx _ ih =>
    rw [List.flatten_cons, List.length_append] at hlen
    have hne : chunk ≠ [] := by
      have := (hm.item hx).least_le
      exact List.length_pos_iff.1 (by omega)
    exact .cons ⟨hne, hr.reads_item hx (by omega)⟩ (ih (by omega))

/-! ### Groups -/

/-- A group is read back if its count or budget is in the frame. -/
theorem Restores.reads_group (hr : Restores read nested canonical)
    (hm : Encode.Measures below nested) (hs : s.Sound below) (hf : f ∈ s.fields)
    {element : Element} {cardinality : Cardinality} (hk : f.kind = .repeated element cardinality)
    (hgov : Governed nested s r frame f)
    {items : List Value} {chunks : List Bytes}
    (hitems : Encode.listContent s f (r.get? f.name) = .ok items)
    (hcount : ∀ count, cardinality = .fixed count → items.length = count)
    (h : List.Forall₂ (fun x chunk => Encode.item nested s f element x = .ok chunk) items chunks)
    (hlen : chunks.flatten.length < 2 ^ 64) :
    Reader.Reads (Decode.group read {} s frame element cardinality) chunks.flatten
      (items.map (item canonical element)) := by
  have hpos := hs.nonempty f hf element cardinality hk
  have hreads := hr.reads_items hm hpos h hlen
  cases cardinality with
  | fixed count =>
    have hgroup := Group.reads_counted hreads
    rw [List.length_map, hcount count rfl] at hgroup
    exact hgroup
  | counted sizeField =>
    obtain ⟨n, hlookup, hderive⟩ := hgov sizeField .itemCount (by rw [hk]; rfl)
    obtain ⟨items', hitems', hn⟩ := (Encode.derive_itemCount hs hf).1 hderive
    cases hitems.symm.trans hitems'
    have hgroup := Group.reads_counted hreads
    rw [List.length_map, hn] at hgroup
    have hmax : n.toNat ≤ 2 ^ 64 - 1 := Nat.le_sub_one_of_lt n.toNat_lt
    exact (Decode.reads_governing hlookup).bind_nil ((Decode.reads_limited hmax).bind_nil hgroup)
  | budgeted sizeField =>
    obtain ⟨n, hlookup, hderive⟩ := hgov sizeField .groupSize (by rw [hk]; rfl)
    rw [Encode.derive_groupSize hs hf] at hderive
    -- the budget was measured, and the measure is right
    have hn : n.toNat = chunks.flatten.length := by
      have hmeasured := (hm.items h).measured_eq hlen
      simp only [Encode.fieldSize, hk, hitems, bind, Except.bind, hmeasured] at hderive
      exact (Except.ok.inj hderive).symm
    refine (Decode.reads_governing hlookup).bind_nil ?_
    rw [hn]
    refine Group.reads_budgetedWith ?_ (Nat.le_sub_one_of_lt hlen)
    refine hreads.imp fun a chunk ha => ⟨ha.1, fun k hk => ?_⟩
    exact (Decode.reads_limited (Nat.succ_le_of_lt hk)).bind_nil ha.2

/-! ### Fields -/

/-- What a content field holds is read back. -/
theorem Restores.reads_content (hr : Restores read nested canonical)
    (hm : Encode.Measures below nested) (hs : s.Sound below) (hf : f ∈ s.fields)
    (hcontent : f.isContent) (hgov : Governed nested s r frame f)
    (h : Encode.fieldBytes nested s r f = .ok bs) (hlen : bs.length < 2 ^ 64) :
    Reader.Reads (Decode.content read {} s frame f.kind) bs (field canonical r f).2 := by
  unfold field
  cases hk : f.kind with
  | derived => simp [Field.isContent, hk] at hcontent
  | scalar width =>
    obtain ⟨n, hn, hbs⟩ := (Encode.fieldBytes_scalar hk).1 h
    rcases Encode.scalarContent_eq_ok_iff.1 hn with ⟨hget, rfl⟩ | hget
    all_goals
      rw [hget]
      exact reads_scalar hbs
  | fixedBlob size =>
    obtain ⟨data, hdata, hbs⟩ := (Encode.fieldBytes_fixedBlob hk).1 h
    rcases Encode.bytesContent_eq_ok_iff.1 hdata with ⟨hget, rfl⟩ | hget
    all_goals
      rw [hget]
      exact reads_blob hbs
  | variableBlob sizeField =>
    have hdata := (Encode.fieldBytes_variableBlob hk).1 h
    obtain ⟨n, hlookup, hderive⟩ := hgov sizeField .byteLength (by rw [hk]; rfl)
    obtain ⟨data, hdata', hn⟩ := (Encode.derive_byteLength hs hf).1 hderive
    cases hdata.symm.trans hdata'
    have hmax : n.toNat ≤ 2 ^ 64 - 1 := Nat.le_sub_one_of_lt n.toNat_lt
    have hbytes : ((r.get? f.name).getD (absent (.variableBlob sizeField))) = .bytes bs := by
      rcases Encode.bytesContent_eq_ok_iff.1 hdata with ⟨hget, rfl⟩ | hget
      all_goals
        rw [hget]
        rfl
    rw [hbytes]
    refine (Decode.reads_governing hlookup).bind_nil ((Decode.reads_limited hmax).bind_nil ?_)
    rw [← hn]
    exact (Reader.reads_take bs).map _
  | embedded type =>
    obtain ⟨inner, hinner, hbs⟩ := (Encode.fieldBytes_embedded hk).1 h
    rcases Encode.recordContent_eq_ok_iff.1 hinner with ⟨hget, rfl⟩ | hget
    all_goals
      rw [hget]
      exact (hr type _ bs hbs hlen).map _
  | repeated element cardinality =>
    obtain ⟨items, chunks, hitems, hcount, hchunks, rfl⟩ := (Encode.fieldBytes_repeated hk).1 h
    have hgroup := hr.reads_group hm hs hf hk hgov hitems hcount hchunks hlen
    rcases Encode.listContent_eq_ok_iff.1 hitems with ⟨hget, rfl⟩ | hget
    all_goals
      rw [hget]
      exact hgroup.map _

/-! ### Structures -/

/-- A derived field that is read joins those that the frame holds. -/
theorem Holds.push {pre : List Field} (h : Holds nested s r pre frame) {d : Field} {n : UInt64}
    (hd : d.name ∉ pre.map (·.name))
    (hn : ∀ width content rule, d.kind = .derived width content rule →
      Encode.derive nested s r content rule = .ok n.toNat) :
    Holds nested s r (pre ++ [d]) ((d.name, n) :: frame) := by
  intro g hg width content rule hk
  rcases List.mem_append.1 hg with hg | hg
  · obtain ⟨m, hlookup, hderive⟩ := h g hg width content rule hk
    have hne : g.name ≠ d.name := by
      intro hname
      exact hd (hname ▸ List.mem_map_of_mem hg)
    refine ⟨m, ?_, hderive⟩
    rw [List.lookup_cons, beq_false_of_ne hne]
    exact hlookup
  · rw [List.mem_singleton.1 hg] at hk ⊢
    exact ⟨n, by simp, hn width content rule hk⟩

/-- A content field is not among those that the frame holds. -/
theorem Holds.pass {pre : List Field} (h : Holds nested s r pre frame) {g : Field}
    (hg : g.isContent) : Holds nested s r (pre ++ [g]) frame := by
  intro d hd width content rule hk
  rcases List.mem_append.1 hd with hd | hd
  · exact h d hd width content rule hk
  · rw [List.mem_singleton.1 hd] at hk
    simp [Field.isContent, hk] at hg

/-- The fields of a structure are read back, given the derived fields before them. -/
theorem Restores.reads_fields (hr : Restores read nested canonical)
    (hm : Encode.Measures below nested) (hs : s.Sound below) {pre post : List Field}
    (hsplit : s.fields = pre ++ post) (hframe : Holds nested s r pre frame) {chunks : List Bytes}
    (h : List.Forall₂ (fun f chunk => Encode.fieldBytes nested s r f = .ok chunk) post chunks)
    (hlen : chunks.flatten.length < 2 ^ 64) :
    Reader.Reads (Decode.fields read {} s post frame) chunks.flatten
      (fields canonical r post) := by
  induction h generalizing pre frame with
  | nil => exact Reader.reads_pure []
  | @cons f chunk post chunks hchunk _ ih =>
    rw [List.flatten_cons, List.length_append] at hlen
    have hsplit' : s.fields = (pre ++ [f]) ++ post := by
      rw [hsplit, List.append_assoc, List.singleton_append]
    rcases f.isContent_or_derived with hcontent | ⟨width, content, rule, hk⟩
    · have hf : f ∈ s.fields := by rw [hsplit]; simp
      -- the size of the field stands before it, so it was read into the frame
      have hgov : Governed nested s r frame f := by
        intro sizeField rule hk
        obtain ⟨width, hd⟩ := hs.governor_mem hsplit hk
        exact hframe _ hd width f.name rule rfl
      have hfirst := hr.reads_content hm hs hf hcontent hgov hchunk (by omega)
      have hrest := ih hsplit' (hframe.pass hcontent) (by omega)
      rw [Decode.fields_content hcontent]
      have heq : fields canonical r (f :: post) =
          field canonical r f :: fields canonical r post := by
        simp [fields, hcontent]
      rw [heq, List.flatten_cons]
      exact hfirst.bind (hrest.map _)
    · obtain ⟨n, hderive, hchunk⟩ := (Encode.fieldBytes_derived hk).1 hchunk
      -- the number fits a width, so it is a machine word
      obtain ⟨hle, -⟩ := Width.encode_eq_ok_iff.1 hchunk
      have hn : (UInt64.ofNat n).toNat = n :=
        UInt64.toNat_ofNat_of_lt' (Nat.lt_of_le_of_lt hle width.maxValue_lt)
      have hnew : f.name ∉ pre.map (·.name) := by
        have hnd := hs.distinct
        rw [hsplit, List.map_append, List.map_cons] at hnd
        intro hmem
        exact (List.nodup_append.1 hnd).2.2 _ hmem _ List.mem_cons_self rfl
      have hpush : Holds nested s r (pre ++ [f]) ((f.name, UInt64.ofNat n) :: frame) := by
        refine hframe.push hnew fun width' content' rule' hk' => ?_
        cases hk.symm.trans hk'
        rw [hderive, hn]
      have heq : fields canonical r (f :: post) = fields canonical r post := by
        simp [fields, Field.not_isContent_of_derived hk]
      rw [Decode.fields_derived hk, heq, List.flatten_cons]
      rw [← hn] at hchunk
      exact (Reader.reads_scalar hchunk).bind (ih hsplit' hpush (by omega))

/-- A structure is read back, if the structures that it refers to are. -/
theorem Restores.reads_structure (hr : Restores read nested canonical)
    (hm : Encode.Measures below nested) (hs : s.Sound below)
    (h : Encode.write nested s r = .ok bs) (hlen : bs.length < 2 ^ 64) :
    Reader.Reads (Decode.structure? {} read s) bs (record canonical s r) := by
  obtain ⟨chunks, hchunks, rfl⟩ := Encode.write_eq_ok_iff.1 h
  have hnone : Holds nested s r [] [] := by
    intro d hd
    cases hd
  exact hr.reads_fields hm hs (List.nil_append _).symm hnone hchunks hlen

end

end Canonical

/-- All structures of a layered schema are read back. -/
theorem Layered.restores {structures : List Structure} (h : Layered structures) :
    Canonical.Restores
      (interpret (fun name => throw (.malformed (.unknownStructure name)))
        (Decode.structure? {}) structures)
      (interpret Encoder.unknown Encode.encoder structures)
      (interpret (fun _ r => r) Canonical.record structures) := by
  induction h with
  | nil =>
    intro type r bs hw
    cases hw
  | @cons s below _ hs hbelow ih =>
    intro type r bs hw hlen
    by_cases hname : s.name = type
    · subst hname
      rw [interpret_head] at hw ⊢
      rw [interpret_head]
      exact ih.reads_structure hbelow.measures hs hw hlen
    · rw [interpret_tail _ _ _ hname] at hw ⊢
      rw [interpret_tail _ _ _ hname]
      exact ih type r bs hw hlen

/-- What is read from an encoding, wherever it stands and whatever follows it, is the canonical form
of the value, and exactly the encoding is taken. -/
theorem Schema.read_of_encode {d : Document} {schema : Schema} (h : Schema.resolve d = .ok schema)
    {name : String} {v : Record} {bs : Bytes} (he : schema.encode name v = .ok bs) :
    (∀ offset rest, schema.read {} name ⟨offset, bs ++ rest⟩ =
      .ok (schema.canonical name v) ⟨offset + bs.length, rest⟩) ∧
      schema.decode {} name bs = .ok (schema.canonical name v) := by
  have hl := layered_of_resolve h
  obtain ⟨hw, hlen⟩ := (encode_eq_ok_iff hl).1 he
  have hreads : Reader.Reads (schema.read {} name) bs (schema.canonical name v) :=
    hl.restores name v bs hw (by omega)
  constructor
  · intro offset rest
    exact hreads _ _ ⟨rfl, rfl⟩
  · exact hreads.decode

/-! ### An example -/

/-- A packet that lacks two fields and a group in an item, and has a short blob and a field that
packets do not have. -/
def sparsePacket : Record := [
  ("parts", .list [.record [("words", .list [.uint 1, .uint 2])], .record []]),
  ("remark", .uint 9),
  ("digest", .bytes [7])]

/-- The bytes of the packet. -/
def sparsePacketBytes : Bytes :=
  [0, 0, 8, 0, 0, 0, 7, 0, 0, 2, 0, 1, 0, 2, 0, 0, 0]

/-- The canonical form of the packet. -/
def fullPacket : Record := [
  ("payload", .bytes []),
  ("digest", .bytes [0, 0, 7]),
  ("first", .record [("words", .list [])]),
  ("parts", .list [
    .record [("words", .list [.uint 1, .uint 2])],
    .record [("words", .list [])]])]

theorem encode_sparsePacket :
    packetSchema.encode "Packet" sparsePacket = .ok sparsePacketBytes := by
  decide +kernel

/-- The packet is read back in its canonical form, in the midst of other bytes and alone. -/
theorem read_of_encode_sparsePacket :
    Schema.resolve packetDocument = .ok packetSchema ∧
      packetSchema.encode "Packet" sparsePacket = .ok sparsePacketBytes ∧
      packetSchema.canonical "Packet" sparsePacket = fullPacket ∧
      (∀ offset rest, packetSchema.read {} "Packet" ⟨offset, sparsePacketBytes ++ rest⟩ =
        .ok fullPacket ⟨offset + 17, rest⟩) ∧
      packetSchema.decode {} "Packet" sparsePacketBytes = .ok fullPacket := by
  obtain ⟨hread, hdecode⟩ := Schema.read_of_encode resolve_packetDocument encode_sparsePacket
  exact ⟨resolve_packetDocument, encode_sparsePacket, rfl, hread, hdecode⟩

end WireSchema
