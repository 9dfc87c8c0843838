import WireSchema.Proofs.Codec.Delimited
import WireSchema.Proofs.Codec.Equivalence

/-!
# Shortest encodings

A layout gives each structure a least size. No encoding is shorter, and neither is anything that is
read; and there is a value whose encoding is just as long: the one with no bytes in its blobs and no
items in its groups but for those that the layout demands. So a group may have empty items exactly
if the least size of these is zero, and that is when it is refused.

* `Schema.least`: a shortest value of a structure.
* `Layered.write_least`: it is written to as many bytes as the least size says, up to the range of a
  machine word.
* `Layered.fixedAtLeast`: where all encodings are of one length, it is the least size.
* `Attribute.IsGroup.piece_eq_error_iff`: which groups are refused for their items.
* `leastSizes_exact`: what this comes to for a document.
-/

namespace WireSchema

/-! ### Shortest values -/

/-- A shortest item, given shortest values of the structures. -/
def Element.least (nested : String → Record) : Element → Value
  | struct type => .record (nested type)
  | scalar _ => .uint 0
  | blob size => .bytes (List.replicate size 0)

/-- The shortest content of a field, given shortest values of the structures. -/
def FieldKind.least (nested : String → Record) : FieldKind → Value
  | embedded type => .record (nested type)
  | repeated item (.fixed count) => .list (List.replicate count (item.least nested))
  | kind => kind.zero

/-- A shortest value of a structure, given those of the structures that it refers to. -/
def Structure.least (nested : String → Record) (s : Structure) : Record :=
  (s.fields.filter (·.isContent)).map fun f => (f.name, f.kind.least nested)

/-- A shortest value of the structure `name`. -/
def Schema.least (schema : Schema) (name : String) : Record :=
  interpret (fun _ => []) Structure.least schema.structures name

section Values

variable {nested : String → Record}

theorem Structure.local_least : Local Structure.least := by
  intro s nested nested' h
  refine List.map_congr_left fun f hf => ?_
  have hkind : f.kind.Agree nested nested' := h f (List.mem_filter.1 hf).1
  cases hk : f.kind with
  | embedded type =>
    rw [hk] at hkind
    simp only [FieldKind.least, hkind type (List.mem_singleton_self type)]
  | repeated item cardinality =>
    rw [hk] at hkind
    cases cardinality with
    | fixed count =>
      cases item with
      | struct type => simp only [FieldKind.least, Element.least, hkind.item]
      | _ => rfl
    | _ => rfl
  | _ => rfl

/-- What is sized by a sibling is empty. -/
theorem FieldKind.least_of_governor? {kind : FieldKind} {governor : String × Derivation}
    (h : kind.governor? = some governor) : kind.least nested = kind.zero := by
  cases kind with
  | repeated item cardinality =>
    cases cardinality with
    | fixed count => cases h
    | _ => rfl
  | variableBlob sizeField => rfl
  | _ => cases h

/-- A shortest value holds the shortest content in each content field. -/
theorem Structure.get?_least {below : List Structure} {s : Structure} (hs : s.Sound below)
    {f : Field} (hf : f ∈ s.fields) (hcontent : f.isContent) :
    (s.least nested).get? f.name = some (f.kind.least nested) := by
  have hnames : Record.names (s.least nested) = (s.fields.filter (·.isContent)).map (·.name) := by
    simp only [Record.names, least, List.map_map, Function.comp_def]
  have hdistinct : (Record.names (s.least nested)).Nodup := by
    rw [hnames]
    exact hs.distinct.sublist (List.filter_sublist.map _)
  exact Record.get?_of_mem hdistinct (List.mem_map_of_mem (List.mem_filter.2 ⟨hf, hcontent⟩))

end Values

/-! ### Sizes up to the range of a machine word -/

section Saturate

variable {a b m n : Nat}

theorem saturate_saturate (n : Nat) : saturate (saturate n) = saturate n := by
  unfold saturate
  omega

theorem saturate_add (h : saturate a = saturate b) (h' : saturate m = saturate n) :
    saturate (a + m) = saturate (b + n) := by
  unfold saturate at *
  omega

/-- A size within the range is the length itself. -/
theorem eq_of_saturate (h : saturate n = m) (hm : m < 2 ^ 64 - 1) : n = m := by
  unfold saturate at h
  omega

end Saturate

/-! ### Shortest encodings -/

namespace Encode

variable {nested : String → Encoder} {values : String → Record} {below : List Structure}
  {s : Structure} {f : Field} {r : Record}

/-- There is an encoding of the given length, up to the range of a machine word. -/
def Attains (made : Except Error Bytes) (size : Nat) : Prop :=
  ∃ bs, made = .ok bs ∧ saturate bs.length = saturate size

theorem Attains.of_length {made : Except Error Bytes} {bs : Bytes} {size : Nat}
    (h : made = .ok bs) (hlen : bs.length = size) : Attains made size :=
  ⟨bs, h, congrArg saturate hlen⟩

/-- Zero is written at every width. -/
theorem attains_zero (width : Width) : Attains (width.encode 0) width.bytes :=
  .of_length (Width.encode_eq_ok_iff.2 ⟨Nat.zero_le _, rfl⟩) (length_leBytes ..)

/-- Zero bytes that fill a blob are written at every length. -/
theorem attains_zeros (size : Nat) : Attains (fit (List.replicate size 0) size) size :=
  .of_length (fit_self List.length_replicate) List.length_replicate

/-- Several encodings that attain their sizes attain the sum of these. -/
theorem attains_flatten {α : Type} {write : α → Except Error Bytes} {size : α → Nat}
    {xs : List α} (h : ∀ x ∈ xs, Attains (write x) (size x)) :
    Attains (do return (← xs.mapM write).flatten) (xs.map size).sum := by
  induction xs with
  | nil => exact ⟨[], rfl, rfl⟩
  | cons x xs ih =>
    obtain ⟨first, hfirst, hsize⟩ := h x List.mem_cons_self
    obtain ⟨others, hothers, hsizes⟩ := ih fun y hy => h y (List.mem_cons_of_mem _ hy)
    obtain ⟨chunks, hchunks, hflatten⟩ := bind_eq_ok_iff.1 hothers
    cases hflatten
    refine ⟨first ++ chunks.flatten, ?_, ?_⟩
    · rw [List.mapM_cons, hfirst, hchunks]
      rfl
    · rw [List.length_append, List.map_cons, List.sum_cons]
      exact saturate_add hsize hsizes

/-- The shortest values of the structures that a kind of field refers to attain their sizes. -/
def AttainsAll (below : List Structure) (nested : String → Encoder) (values : String → Record)
    (kind : FieldKind) : Prop :=
  ∀ type ∈ kind.references,
    Attains ((nested type).write (values type)) ((Element.struct type).minSize below)

theorem AttainsAll.item {element : Element} {cardinality : Cardinality}
    (h : AttainsAll below nested values (.repeated element cardinality)) :
    Attains (item nested s f element (element.least values)) (element.minSize below) := by
  cases element with
  | struct type => exact h type (List.mem_singleton_self type)
  | scalar width => exact attains_zero width
  | blob size => exact attains_zeros size

/-- A field that takes its number from a shortest value holds zero. -/
theorem derive_least (hs : s.Sound below) {d : Field} (hd : d ∈ s.fields) {width : Width}
    {content : String} {rule : Derivation} (hk : d.kind = .derived width content rule) :
    derive nested s (s.least values) content rule = .ok 0 := by
  obtain ⟨f, hdf, rfl, hgovernor⟩ := hs.wired.governs d hd width content rule hk
  have hf : f ∈ s.fields := hdf.subset (by simp)
  have hget : (s.least values).get? f.name = some (f.kind.least values) :=
    Structure.get?_least hs hf (Field.isContent_of_governor? hgovernor)
  rw [FieldKind.least_of_governor? hgovernor] at hget
  cases rule with
  | byteLength =>
    refine (derive_byteLength hs hf).2 ⟨[], ?_, rfl⟩
    rw [hget, FieldKind.eq_variableBlob hgovernor]
    rfl
  | itemCount =>
    obtain ⟨element, hkind⟩ := FieldKind.exists_repeated hgovernor
    refine (derive_itemCount hs hf).2 ⟨[], ?_, rfl⟩
    rw [hget, hkind]
    rfl
  | groupSize =>
    obtain ⟨element, hkind⟩ := FieldKind.exists_budgeted hgovernor
    rw [derive_groupSize hs hf, hget, hkind]
    simp only [fieldSize, hkind]
    rfl

/-- The shortest content of a field attains its size. -/
theorem AttainsAll.field (hs : s.Sound below) (hf : f ∈ s.fields)
    (h : AttainsAll below nested values f.kind) :
    Attains (fieldBytes nested s (s.least values) f) (f.kind.minSize below) := by
  rcases f.isContent_or_derived with hcontent | ⟨width, content, rule, hk⟩
  · have hget : (s.least values).get? f.name = some (f.kind.least values) :=
      Structure.get?_least hs hf hcontent
    unfold fieldBytes
    rw [hget]
    cases hk : f.kind with
    | scalar width => exact attains_zero width
    | fixedBlob size => exact attains_zeros size
    | variableBlob sizeField => exact .of_length rfl rfl
    | embedded type =>
      rw [hk] at h
      exact h type (List.mem_singleton_self type)
    | repeated element cardinality =>
      rw [hk] at h
      cases cardinality with
      | fixed count =>
        have hitem : Attains (Encode.item nested s f element (element.least values))
            (element.minSize below) := h.item
        have hitems : ∀ x ∈ List.replicate count (element.least values),
            Attains (Encode.item nested s f element x) (element.minSize below) :=
          fun x hx => List.eq_of_mem_replicate hx ▸ hitem
        obtain ⟨bs, hbs, hsize⟩ := attains_flatten hitems
        refine ⟨bs, ?_, ?_⟩
        · have hcount : checkCount s f (.fixed count)
              (List.replicate count (element.least values)) = .ok () :=
            if_pos List.length_replicate
          refine bind_eq_ok_iff.2 ⟨_, rfl, ?_⟩
          exact bind_eq_ok_iff.2 ⟨(), hcount, hbs⟩
        · rw [hsize, List.map_const', List.sum_replicate_nat, List.length_replicate,
            FieldKind.minSize, Nat.mul_comm]
      | counted sizeField => exact .of_length rfl rfl
      | budgeted sizeField => exact .of_length rfl rfl
    | derived width content rule => exact absurd hcontent (Field.not_isContent_of_derived hk)
  · simp only [fieldBytes, hk, derive_least hs hf hk]
    exact attains_zero width

/-- So does a shortest value of a structure. -/
theorem attains_least (hs : s.Sound below)
    (h : ∀ f ∈ s.fields, AttainsAll below nested values f.kind) :
    Attains (write nested s (s.least values)) s.minSize := by
  obtain ⟨bs, hbs, hsize⟩ := attains_flatten fun f hf => (h f hf).field hs hf
  refine ⟨bs, hbs, ?_⟩
  rw [hsize, hs.minSize_eq, minSizeOf, saturate_saturate]

end Encode

namespace Layered

variable {schema : Schema} (h : Layered schema.structures)
include h

/-- A shortest value of a structure is written to as many bytes as the least size says, or to more
than can be counted by a machine word. -/
theorem write_least {name : String} {s : Structure} (hs : schema.structure? name = some s) :
    ∃ bs, schema.write name (schema.least name) = .ok bs ∧ saturate bs.length = s.minSize := by
  have hattains : Encode.Attains (schema.write name (schema.least name)) s.minSize := by
    refine h.induction_of_found (P := fun name s =>
      Encode.Attains (schema.write name (schema.least name)) s.minSize) ?_ hs
    intro name s hs ih
    have hleast : schema.least name = s.least schema.least :=
      h.interpret_of_find _ _ Structure.local_least hs
    rw [Schema.write_of_find h hs, hleast]
    refine Encode.attains_least (Schema.sound_of_find h hs) fun f hf type ht => ?_
    obtain ⟨t, ht, hattains⟩ := ih f hf type ht
    simp only [Element.minSize, ht, Option.map_some, Option.getD_some]
    exact hattains
  obtain ⟨bs, hbs, hsize⟩ := hattains
  refine ⟨bs, hbs, ?_⟩
  rw [hsize, (Schema.sound_of_find h hs).minSize_eq, minSizeOf, saturate_saturate]

end Layered

/-! ### Least sizes of what is fixed -/

section Fixed

variable {structures : List Structure} {n : Nat}

/-- The structures of which all encodings are of one length have this as their least size. -/
def FixedAtLeast (structures : List Structure) : Prop :=
  ∀ s ∈ structures, ∀ n, s.fixedSize = some n → s.minSize = n

theorem Element.minSize_of_fixedSize? (hs : FixedAtLeast structures) {item : Element}
    (h : item.fixedSize? structures = some n) : item.minSize structures = n := by
  cases item with
  | struct type =>
    obtain ⟨s, hfind, hfixed⟩ := Option.bind_eq_some_iff.1 h
    simp only [minSize, hfind, Option.map_some, Option.getD_some]
    exact hs s (mem_of_findStructure? hfind) n hfixed
  | scalar width => exact Option.some.inj h
  | blob size => exact Option.some.inj h

theorem FieldKind.minSize_of_fixedSize? (hs : FixedAtLeast structures) {kind : FieldKind}
    (h : kind.fixedSize? structures = some n) : kind.minSize structures = n := by
  cases kind with
  | embedded type =>
    have hitem : (Element.struct type).minSize structures = n := Element.minSize_of_fixedSize? hs h
    exact hitem
  | repeated item cardinality =>
    cases cardinality with
    | fixed count =>
      obtain ⟨size, hsize, rfl⟩ := Option.map_eq_some_iff.1 h
      rw [minSize, Element.minSize_of_fixedSize? hs hsize]
    | _ => cases h
  | variableBlob sizeField => cases h
  | _ => exact Option.some.inj h

/-- Where every field has a fixed size, the least size of all is the sum of these. -/
theorem map_minSize_of_fixedSize? (hs : FixedAtLeast structures) {fields : List Field}
    {sizes : List Nat} (h : fields.mapM (·.kind.fixedSize? structures) = some sizes) :
    fields.map (·.kind.minSize structures) = sizes := by
  induction fields generalizing sizes with
  | nil =>
    cases h
    rfl
  | cons f fields ih =>
    rw [List.mapM_cons] at h
    obtain ⟨first, hfirst, h⟩ := Option.bind_eq_some_iff.1 h
    obtain ⟨rest, hrest, h⟩ := Option.bind_eq_some_iff.1 h
    cases h
    rw [List.map_cons, ih hrest, FieldKind.minSize_of_fixedSize? hs hfirst]

/-- Where all encodings of a structure are of one length, it is the least size. -/
theorem Layered.fixedAtLeast (h : Layered structures) : FixedAtLeast structures := by
  induction h with
  | nil => simp [FixedAtLeast]
  | @cons s below _ hs _ ih =>
    intro t ht n hfixed
    rcases List.mem_cons.1 ht with rfl | ht
    · rw [hs.fixedSize_eq] at hfixed
      obtain ⟨sizes, hsizes, hlt, rfl⟩ := fixedSizeOf_eq_some_iff.1 hfixed
      rw [hs.minSize_eq, minSizeOf, map_minSize_of_fixedSize? ih hsizes]
      unfold saturate
      omega
    · exact ih t ht n hfixed

end Fixed

/-! ### Nothing is shorter -/

namespace Schema

variable {schema : Schema} (h : Layered schema.structures) {name : String} {s : Structure}
  (hs : schema.structure? name = some s)
include h hs

theorem minSize_le_of_write {r : Record} {bs : Bytes} (hw : schema.write name r = .ok bs) :
    s.minSize ≤ bs.length := by
  have hleast := (h.measures name r bs hw).least_le
  simp only [Element.minSize, show findStructure? schema.structures name = some s from hs,
    Option.map_some, Option.getD_some] at hleast
  exact hleast

/-- What is read takes at least as many bytes as the least size says. -/
theorem minSize_le_of_read {limits : Limits} {c c' : Cursor} {r : Record}
    (hread : schema.read limits name c = .ok r c') : c.offset + s.minSize ≤ c'.offset := by
  obtain ⟨bs, hpass, hreads, -⟩ := schema.delimited_read limits name c c' r hread
  have hmin : s.minSize ≤ bs.length := by
    by_cases hlen : bs.length < 2 ^ 64
    · -- the bytes alone are read as the same value, which is written to them
      have halone := hreads ⟨0, bs⟩ ⟨0 + bs.length, []⟩ ⟨(List.append_nil bs).symm, rfl⟩
      obtain ⟨out, hout, hw⟩ := h.reproduces limits name r _ _ hlen halone
      have hbs : bs = out := hout.rest.trans (List.append_nil out)
      rw [hbs]
      exact minSize_le_of_write h hs hw
    · rw [(sound_of_find h hs).minSize_eq, minSizeOf]
      unfold saturate
      omega
  have hoffset := hpass.offset
  omega

end Schema

/-! ### Items that may be empty -/

/-- The value is encoded as an item to the given bytes. -/
def Schema.EncodesItem (schema : Schema) : Element → Value → Bytes → Prop
  | .struct type, .record r, bs => schema.encode type r = .ok bs
  | .scalar width, .uint n, bs => width.encode n.toNat = .ok bs
  | .blob size, .bytes data, bs => fit data size = .ok bs
  | _, _, _ => False

/-- Items may be empty exactly if their least size is zero. -/
theorem Schema.exists_encodesItem_nil_iff {schema : Schema} (h : Layered schema.structures)
    {item : Element}
    (hreferences : ∀ type ∈ item.single.references, (schema.structure? type).isSome) :
    (∃ x, schema.EncodesItem item x []) ↔ item.minSize schema.structures = 0 := by
  cases item with
  | struct type =>
    obtain ⟨s, hs⟩ := Option.isSome_iff_exists.1 (hreferences type (List.mem_singleton_self type))
    have hmin : (Element.struct type).minSize schema.structures = s.minSize := by
      rw [Element.minSize, show findStructure? schema.structures type = some s from hs]
      rfl
    rw [hmin]
    constructor
    · rintro ⟨x, hx⟩
      cases x with
      | record r =>
        exact Nat.le_zero.1 (minSize_le_of_write h hs ((encode_eq_ok_iff h).1 hx).1)
      | _ => cases hx
    · intro hzero
      obtain ⟨bs, hbs, hsize⟩ := h.write_least hs
      have hlen : bs.length = 0 := eq_of_saturate (hsize.trans hzero) (by omega)
      obtain rfl := List.length_eq_zero_iff.1 hlen
      exact ⟨.record (schema.least type), (encode_eq_ok_iff h).2 ⟨hbs, by simp⟩⟩
  | scalar width =>
    have hpos := width.bytes_pos
    constructor
    · rintro ⟨x, hx⟩
      cases x with
      | uint n => exact (Width.length_of_encode hx).symm
      | _ => cases hx
    · intro hzero
      exact absurd hzero (Nat.pos_iff_ne_zero.1 hpos)
  | blob size =>
    constructor
    · rintro ⟨x, hx⟩
      cases x with
      | bytes data => exact (length_of_fit hx).symm
      | _ => cases hx
    · rintro rfl
      exact ⟨.bytes [], fit_self rfl⟩

/-- The attribute is a group, under the given name, of the given items. -/
structure Attribute.IsGroup (d : Document) (a : Attribute) (name : String) (item : Element) :
    Prop where
  placed : a.disposition = none
  named : a.name = some name
  declares : ∃ cardinality, a.Declares d (.repeated item cardinality)

/-- The structures are built from the document, the one that the attribute depends on among
them. -/
structure Attribute.Reached (d : Document) (a : Attribute) (below : List Structure) : Prop where
  built : Built d below
  depends : ∀ t, a.dependency? d = some t → (findStructure? below t.1).isSome

/-- Among some structures that are laid out, the items may be empty. -/
def Element.MayBeEmpty (structures : List Structure) (item : Element) : Prop :=
  ∃ x, (⟨structures, []⟩ : Schema).EncodesItem item x []

namespace Attribute.IsGroup

variable {d : Document} {a : Attribute} {name owner : String} {item : Element}
  {below : List Structure} (hg : a.IsGroup d name item) (hr : a.Reached d below)
include hg hr

/-- Once the structure that a group depends on is laid out, its least size tells whether items may
be empty. -/
theorem mayBeEmpty_iff : item.MayBeEmpty below ↔ item.minSize below = 0 := by
  obtain ⟨cardinality, hkind⟩ := hg.declares
  refine Schema.exists_encodesItem_nil_iff hr.built.layered fun type ht => ?_
  obtain ⟨inner, hinner⟩ := hkind.dependency?_of_reference hg.placed hg.named
    (item.references_single cardinality ▸ ht)
  exact hr.depends _ hinner

/-- A group is refused for its items exactly if these may be empty. -/
theorem piece_eq_error_iff :
    a.piece d below owner = .error (.zeroSizedElement owner name) ↔ item.MayBeEmpty below := by
  obtain ⟨cardinality, hkind⟩ := hg.declares
  rw [hg.mayBeEmpty_iff hr]
  exact Attribute.piece_eq_zeroSizedElement_iff hg.placed hg.named hkind

end Attribute.IsGroup

/-- A document that is refused for the items of a group has such a group, of items that may be
empty. -/
theorem exists_group_of_resolve {d : Document} {owner name : String}
    (h : Schema.resolve d = .error (.zeroSizedElement owner name)) :
    ∃ layout a below item, d.layout? owner = some layout ∧ a ∈ layout ∧
      a.IsGroup d name item ∧ a.Reached d below ∧ item.MayBeEmpty below := by
  rcases fault_of_resolve h with hplain | ⟨path, hpath⟩ | hfault
  · exact hplain.elim
  · cases hpath
  obtain ⟨owner', layout, a, below, hlayout, ha, hb, hdep, hpiece⟩ := hfault
  rcases Attribute.fault_of_piece hpiece with hplain | ⟨name', item, cardinality, he, hgroup⟩
  · exact hplain.elim
  cases he
  obtain ⟨hdisp, hname, hkind, hzero⟩ := hgroup
  have hg : a.IsGroup d name item := ⟨hdisp, hname, cardinality, hkind⟩
  have hr : a.Reached d below := ⟨hb, hdep⟩
  exact ⟨layout, a, below, item, hlayout, ha, hg, hr, (hg.mayBeEmpty_iff hr).2 hzero⟩

/-- In a document that is resolved, no group is of items that may be empty. -/
theorem not_mayBeEmpty_of_resolve {d : Document} {schema : Schema}
    (h : Schema.resolve d = .ok schema) {owner name : String} {layout : List Attribute}
    {a : Attribute} {item : Element} (hlayout : d.layout? owner = some layout) (ha : a ∈ layout)
    (hg : a.IsGroup d name item) : ¬ item.MayBeEmpty schema.structures := by
  obtain ⟨above, below, s, p, hstructures, rfl, -, hready, hp, -⟩ :=
    exists_laid_of_resolve h hlayout
  have hl := layered_of_resolve h
  rw [hstructures] at hl
  have hgrown : ∀ type t, findStructure? below type = some t →
      findStructure? schema.structures type = some t := by
    rw [hstructures]
    exact fun _ _ => hl.find_above
  have hdep : ∀ t, a.dependency? d = some t → (findStructure? schema.structures t.1).isSome := by
    intro t ht
    obtain ⟨u, hu⟩ := Option.isSome_iff_exists.1 (hready a ha t ht)
    exact Option.isSome_iff_exists.2 ⟨u, hgrown _ u hu⟩
  obtain ⟨q, hq⟩ := exists_piece_of_pieces hp ha
  have hpiece := (LaidAlike.of_grown hgrown).piece (hready a ha) hq
  rw [← hg.piece_eq_error_iff ⟨built_of_resolve h, hdep⟩, hpiece]
  exact nofun

/-! ### Least sizes are exact -/

/-- The least size of a structure is the length of its shortest encodings. -/
structure Schema.Tight (schema : Schema) (name : String) (s : Structure) : Prop where
  /-- Nothing that is written is shorter. -/
  written : ∀ r bs, schema.write name r = .ok bs → s.minSize ≤ bs.length
  encoded : ∀ r bs, schema.encode name r = .ok bs → s.minSize ≤ bs.length
  /-- Nothing that is read is shorter, whatever comes before and after it. -/
  read : ∀ limits c c' r, schema.read limits name c = .ok r c' → c.offset + s.minSize ≤ c'.offset
  decoded : ∀ limits input r, schema.decode limits name input = .ok r → s.minSize ≤ input.length
  /-- There is an encoding of this length, unless it is too long for a buffer. -/
  attained : s.minSize < 2 ^ 63 → ∃ r bs, schema.encode name r = .ok bs ∧ bs.length = s.minSize
  /-- If all encodings are of one length, it is this one. -/
  fixed : ∀ n, s.fixedSize = some n →
    s.minSize = n ∧ (∀ r bs, schema.write name r = .ok bs → bs.length = n) ∧
      ∀ r bs, schema.encode name r = .ok bs → bs.length = n

theorem Layered.tight {schema : Schema} (h : Layered schema.structures) {name : String}
    {s : Structure} (hs : schema.structure? name = some s) : schema.Tight name s where
  written r bs hw := schema.minSize_le_of_write h hs hw
  encoded r bs he := schema.minSize_le_of_write h hs ((Schema.encode_eq_ok_iff h).1 he).1
  read limits c c' r hread := schema.minSize_le_of_read h hs hread
  decoded limits input r hdecode := by
    obtain ⟨offset, hread⟩ := Reader.decode_eq_ok_iff.1 hdecode
    have hmin := schema.minSize_le_of_read h hs hread
    obtain ⟨bs, hpass, -⟩ := schema.delimited_read limits name _ _ r hread
    have hoffset : offset = 0 + bs.length := hpass.offset
    have hinput : input = bs ++ [] := hpass.rest
    rw [hinput, List.append_nil]
    simp only [Cursor.start] at hmin
    omega
  attained hmin := by
    obtain ⟨bs, hbs, hsize⟩ := h.write_least hs
    have hlen : bs.length = s.minSize := eq_of_saturate hsize (by omega)
    exact ⟨schema.least name, bs, (Schema.encode_eq_ok_iff h).2 ⟨hbs, by omega⟩, hlen⟩
  fixed n hn := by
    have hfound : (Element.struct name).fixedSize? schema.structures = some n := by
      rw [Element.fixedSize?, show findStructure? schema.structures name = some s from hs]
      exact hn
    have hwritten : ∀ r bs, schema.write name r = .ok bs → bs.length = n :=
      fun r bs hw => (h.measures name r bs hw).length_eq n hfound
    refine ⟨h.fixedAtLeast s (mem_of_findStructure? hs) n hn, hwritten, fun r bs he => ?_⟩
    exact hwritten r bs ((Schema.encode_eq_ok_iff h).1 he).1

/-- Least sizes are exact. In a document that is resolved, the least size of a structure is the
length of its shortest encodings, and no group is of items that may be empty. A group is refused for
its items exactly if these may be empty, once the structure that it depends on is laid out; and a
document that is refused for the items of a group has such a group. -/
theorem leastSizes_exact (d : Document) :
    (∀ schema, Schema.resolve d = .ok schema →
      (∀ name s, schema.structure? name = some s → schema.Tight name s) ∧
      ∀ owner layout a name item, d.layout? owner = some layout → a ∈ layout →
        a.IsGroup d name item → ¬ item.MayBeEmpty schema.structures) ∧
    (∀ owner (a : Attribute) name item below, a.IsGroup d name item → a.Reached d below →
      (a.piece d below owner = .error (.zeroSizedElement owner name) ↔ item.MayBeEmpty below)) ∧
    ∀ owner name, Schema.resolve d = .error (.zeroSizedElement owner name) →
      ∃ layout a below item, d.layout? owner = some layout ∧ a ∈ layout ∧
        a.IsGroup d name item ∧ a.Reached d below ∧ item.MayBeEmpty below := by
  refine ⟨fun schema h => ⟨fun name s hs => (layered_of_resolve h).tight hs, ?_⟩, ?_, ?_⟩
  · exact fun owner layout a name item => not_mayBeEmpty_of_resolve h
  · exact fun owner a name item below hg hr => hg.piece_eq_error_iff hr
  · exact fun owner name h => exists_group_of_resolve h

/-! ### An example -/

/-- Pairs of halves, of which three make a group, and a structure without a field. -/
def halvesDocument : Document :=
  .ofList [
    ("Pair", .struct [.named "front" "half", .named "back" "half"]),
    ("Pairs", .struct [(Attribute.named "pairs" "Pair").withSize (.fixed 3)]),
    ("Void", .struct []),
    ("half", .byte (.ofNat (2 ^ 63)) none)]

/-- A pair is longer than a machine word can tell. -/
def pairStructure : Structure where
  name := "Pair"
  fields := [⟨"front", .fixedBlob (2 ^ 63)⟩, ⟨"back", .fixedBlob (2 ^ 63)⟩]
  constants := []
  fixedSize := none
  minSize := 2 ^ 64 - 1

def halvesSchema : Schema where
  structures := [
    ⟨"Void", [], [], some 0, 0⟩,
    ⟨"Pairs", [⟨"pairs", .repeated (.struct "Pair") (.fixed 3)⟩], [], none, 2 ^ 64 - 1⟩,
    pairStructure]
  enumerations := []

/-- A group of voids. -/
def voids : Attribute := (Attribute.named "voids" "Void").withSize (.fixed 2)

theorem resolve_halvesDocument : Schema.resolve halvesDocument = .ok halvesSchema := by
  decide +kernel

/-- Pairs of halves make a group, although their least size is out of range; voids do not. -/
theorem groups_of_halves :
    halvesSchema.Tight "Pair" pairStructure ∧
      ¬ (Element.struct "Pair").MayBeEmpty halvesSchema.structures ∧
      (Element.struct "Void").MayBeEmpty halvesSchema.structures ∧
      ∃ item below, voids.IsGroup (halvesDocument.insert "Voids" (.struct [voids])) "voids" item ∧
        item.MayBeEmpty below := by
  obtain ⟨haccepted, hgroup, -⟩ := leastSizes_exact halvesDocument
  obtain ⟨htight, hitems⟩ := haccepted halvesSchema resolve_halvesDocument
  have hpairs : ((Attribute.named "pairs" "Pair").withSize (.fixed 3)).IsGroup halvesDocument
      "pairs" (.struct "Pair") :=
    ⟨rfl, rfl, _, .fixed (by decide) (.struct rfl) rfl rfl⟩
  have hvoids : voids.IsGroup halvesDocument "voids" (.struct "Void") :=
    ⟨rfl, rfl, _, .fixed (by decide) (.struct rfl) rfl rfl⟩
  have hreached : voids.Reached halvesDocument halvesSchema.structures := by
    refine ⟨built_of_resolve resolve_halvesDocument, fun t ht => ?_⟩
    cases ht
    rfl
  refine ⟨htight _ _ rfl, hitems "Pairs" _ _ _ _ rfl (by decide) hpairs, ?_, ?_⟩
  · exact (hgroup "Voids" voids "voids" _ _ hvoids hreached).1 (by decide +kernel)
  · have hrefused : Schema.resolve (halvesDocument.insert "Voids" (.struct [voids])) =
        .error (.zeroSizedElement "Voids" "voids") := by
      decide +kernel
    obtain ⟨layout, a, below, item, hlayout, ha, hg, -, hempty⟩ :=
      (leastSizes_exact _).2.2 "Voids" "voids" hrefused
    cases hlayout
    obtain rfl := List.mem_singleton.1 ha
    exact ⟨item, below, hg, hempty⟩

end WireSchema
