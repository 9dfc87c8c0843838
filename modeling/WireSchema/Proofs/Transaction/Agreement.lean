import WireSchema.Proofs.Transaction.Mirror

/-!
# Typed and interpreted codecs

A structure of a schema and a type agree if the interpreted codec and the typed one do the same for
them: they accept the same inputs and the same values, with the same results, and fail with the same
errors (`Agrees`). A size or a count agrees if it can be asked for in the same cases, with the same
result (`Derives`).

A structure agrees with the type that mirrors its fields (`Schema.View.twin`, `Twin.agrees`). What
is said of a structure of a schema is said of its fields through a `Schema.View`: the readers and
encoders that it sees are those of the schema.
-/

namespace WireSchema

/-- The interpreted codec of a structure is that of a type, whose values amount to records. -/
structure Agrees (schema : Schema) (name : String) {α : Type} [Wire α] (record : α → Record) :
    Prop where
  /-- The same inputs are read, as the same values, or with the same error. -/
  decode (input : Bytes) : schema.decode {} name input = (Wire.decode α input).map record
  /-- The same values are written, to the same bytes, or with the same error. -/
  encode (a : α) : schema.encode name (record a) = Wire.encode a

/-- A derived field of a structure is the one that is asked for of the type. -/
structure Derives (schema : Schema) (name field : String) {α υ : Type} [Word υ]
    (record : α → Record) (derived : α → Except Error υ) : Prop where
  /-- The type has a number if the structure has, and it is the same. -/
  ok_iff (a : α) (d : υ) :
    derived a = .ok d ↔ schema.derived name (record a) field = .ok (Word.toNat d)
  /-- The type has none where the structure has none, or one that does not fit. -/
  eq_bind (a : α) :
    derived a = schema.derived name (record a) field >>= fun n => Word.derive υ n

/-! ### Derived fields -/

theorem Derives.of_eq {schema : Schema} {name field : String} {α υ : Type} [Word υ] [LawfulWord υ]
    {record : α → Record} {derived : α → Except Error υ}
    (h : ∀ a, derived a = schema.derived name (record a) field >>= fun n => Word.derive υ n) :
    Derives schema name field record derived where
  ok_iff a d := by
    rw [h, bind_eq_ok_iff]
    constructor
    · rintro ⟨n, hn, hd⟩
      rw [hn, Word.derive_eq_ok_iff.1 hd]
    · intro hn
      exact ⟨_, hn, Word.derive_eq_ok_iff.2 rfl⟩
  eq_bind := h

/-! ### Structures in a schema -/

/-- A structure of a schema, and what it sees of the structures below it. -/
structure Schema.View (schema : Schema) (name : String) (s : Structure)
    (read : String → Reader Record) (nested : String → Encoder) (below : List Structure) :
    Prop where
  sound : s.Sound below
  read_eq : schema.read {} name = Decode.structure? {} read s
  encoder_eq : schema.encoder name = Encode.encoder nested s
  read_below (type : String) : (findStructure? below type).isSome → read type = schema.read {} type
  encoder_below (type : String) : (findStructure? below type).isSome →
    nested type = schema.encoder type

namespace Schema

variable {schema : Schema} {name : String} {s : Structure}

theorem exists_view (hl : Layered schema.structures) (hs : schema.structure? name = some s) :
    ∃ read nested below, schema.View name s read nested below := by
  obtain ⟨structures, enumerations⟩ := schema
  have hname : s.name = name := name_of_findStructure? hs
  subst hname
  obtain ⟨above, below, heq, hsound, -⟩ := hl.exists_below (mem_of_findStructure? hs)
  have heq : structures = above ++ s :: below := heq
  subst heq
  have hhead : (findStructure? (s :: below) s.name).isSome := by
    rw [findStructure?_cons, if_pos rfl]
    rfl
  refine ⟨interpret (fun name => throw (.malformed (.unknownStructure name)))
    (Decode.structure? {}) below, interpret Encoder.unknown Encode.encoder below, below, hsound,
    ?_, ?_, ?_, ?_⟩
  · exact (hl.interpret_append _ _ hhead).trans (interpret_head _ _ s below)
  · exact (hl.interpret_append _ _ hhead).trans (interpret_head _ _ s below)
  · intro type htype
    unfold read
    rw [List.append_cons] at hl ⊢
    exact (hl.interpret_append _ _ htype).symm
  · intro type htype
    unfold encoder
    rw [List.append_cons] at hl ⊢
    exact (hl.interpret_append _ _ htype).symm

namespace View

variable {read : String → Reader Record} {nested : String → Encoder} {below : List Structure}

theorem isSome_below (hv : schema.View name s read nested below) {f : Field} (hf : f ∈ s.fields)
    {type : String} (htype : type ∈ f.kind.references) : (findStructure? below type).isSome :=
  hv.sound.references f hf type htype

/-- A type that mirrors a structure of the schema mirrors it where it is referred to. -/
theorem twin_below (hv : schema.View name s read nested below) {f : Field} (hf : f ∈ s.fields)
    {type : String} (htype : type ∈ f.kind.references) {α : Type} [Wire α] {record : α → Record}
    (ht : Twin (schema.read {}) schema.encoder type record) : Twin read nested type record := by
  have hbelow := hv.isSome_below hf htype
  have hread := hv.read_below type hbelow
  have hencoder := hv.encoder_below type hbelow
  exact ⟨hread.trans ht.reads, fun a => by rw [hencoder, ht.writes],
    fun a => by rw [hencoder, ht.sizes]⟩

theorem forward_below (hv : schema.View name s read nested below) {f : Field} (hf : f ∈ s.fields)
    {type : String} (htype : type ∈ f.kind.references) : Reader.Forward (read type) := by
  rw [hv.read_below type (hv.isSome_below hf htype)]
  exact schema.forward_read {} type

/-- A record that lists the content of a structure has all that it lists. -/
theorem has_part (hv : schema.View name s read nested below) {r part : Record}
    (hnames : r.names = (s.fields.filter (·.isContent)).map (·.name)) (hpart : part ⊆ r) :
    r.Has part := by
  intro p hp
  refine Record.get?_of_mem ?_ (hpart hp)
  rw [hnames]
  exact hv.sound.distinct.sublist (List.filter_sublist.map _)

/-- A type that mirrors the fields of a structure mirrors the structure. -/
theorem twin (hv : schema.View name s read nested below) {α : Type} [Wire α]
    {record : α → Record} (ht : Tail read nested s s.fields record)
    (hfixed : ∀ n, s.fixedSize = some n → n < 2 ^ 64 ∧ ∀ a : α, Wire.size a = n) :
    Twin (schema.read {}) schema.encoder name record := by
  have hself (a : α) : Record.Has (record a) (record a) :=
    hv.has_part (ht.names a) (List.Subset.refl _)
  constructor
  case reads => exact hv.read_eq.trans (ht.reads [])
  case writes =>
    intro a
    rw [hv.encoder_eq]
    exact ht.writes (hself a)
  case sizes =>
    intro a
    rw [hv.encoder_eq]
    -- a structure of fixed size is not measured field by field
    show Encode.size nested s (record a) = _
    unfold Encode.size
    cases hs : s.fixedSize with
    | none => exact ht.sizes 0 (hself a)
    | some n =>
      obtain ⟨hlt, hsize⟩ := hfixed n hs
      refine (addSize_eq_ok_iff.2 ⟨?_, ?_⟩).symm
      · rw [hsize]
        omega
      · rw [hsize, Nat.zero_add]

/-- A derived field is the one of a type if the type asks for the same number. -/
theorem derives (hv : schema.View name s read nested below) {α υ : Type} [Word υ] [LawfulWord υ]
    {record : α → Record} {derived : α → Except Error υ} {field content : String} {width : Width}
    {rule : Derivation} (hf : ⟨field, .derived width content rule⟩ ∈ s.fields)
    (h : ∀ a, derived a =
      Encode.derive nested s (record a) content rule >>= fun n => Word.derive υ n) :
    Derives schema name field record derived := by
  refine .of_eq fun a => ?_
  unfold Schema.derived
  rw [h, hv.encoder_eq]
  exact congrArg (· >>= fun n => Word.derive υ n) (derived_eq hv.sound hf).symm

end View

end Schema

/-- A structure all of whose fields are mirrored anywhere. -/
theorem Segment.twin {schema : Schema} {name : String} {s : Structure} {α : Type} [Wire α]
    {record : α → Record} (ha : Segment s.fields record) (hl : Layered schema.structures)
    (hs : schema.structure? name = some s)
    (hfixed : ∀ n, s.fixedSize = some n → n < 2 ^ 64 ∧ ∀ a : α, Wire.size a = n) :
    Twin (schema.read {}) schema.encoder name record := by
  obtain ⟨read, nested, below, hv⟩ := Schema.exists_view hl hs
  exact hv.twin ha.tail hfixed

/-- A type that mirrors a structure has the codec of the structure. -/
theorem Twin.agrees {schema : Schema} {name : String} {α : Type} [Wire α] {record : α → Record}
    (ht : Twin (schema.read {}) schema.encoder name record) : Agrees schema name record where
  decode input := by
    unfold Schema.decode
    rw [ht.reads]
    exact Reader.decode_map record input
  encode a := by
    have hsize : addSize 0 (Wire.size a) =
        checkSize (Wire.size a) >>= fun _ => pure (Wire.size a) := by
      unfold addSize checkSize
      rw [Nat.zero_add]
      split_ifs <;> rfl
    unfold Schema.encode Schema.encodedSize Schema.write Wire.encode
    rw [ht.sizes, ht.writes, hsize]
    simp only [bind_assoc, pure_bind]

end WireSchema
