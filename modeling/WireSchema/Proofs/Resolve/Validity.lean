import WireSchema.Proofs.Resolve.Dependency
import WireSchema.Proofs.Resolve.Sizing

/-!
# Valid documents

A document is valid if its types are legal one by one, no structure depends on itself, every
attribute is complete and refers to what is there, and the declared fields of every structure go
together: their names differ, what they say about sizes can be satisfied, and the items of every
group take a byte. `Document.Valid` says this of the document alone. It knows of no order in which
types are taken, of no path of structures that wait, and of no binding that changes a field.

`resolve_iff_valid` says that resolution accepts the valid documents and no others.

* `occupies_of_minSize`, `minSize_of_occupies`: the least sizes that are computed are positive where
  every value takes a byte.
* `valid_of_resolve`: what is resolved is valid.
* `Document.Valid.exists_visit`: in a valid document no visit fails.
-/

namespace WireSchema

/-- Whether all values of a declared field take a byte: there is a part of the field that does. -/
inductive Document.Occupies (d : Document) : FieldKind → Prop
  | scalar {width : Width} : d.Occupies (.scalar width)
  | fixedBlob {size : Nat} : 0 < size → d.Occupies (.fixedBlob size)
  | embedded {type : String} {layout : List Attribute} {fs : List Field} {cs : List Constant}
    {f : Field} : d.layout? type = some layout → Spliced d layout fs cs → f ∈ fs →
    d.Occupies f.kind → d.Occupies (.embedded type)
  | repeated {item : Element} {count : Nat} : 0 < count → d.Occupies item.single →
    d.Occupies (.repeated item (.fixed count))

/-- The attribute is complete and what it refers to is there. -/
inductive Attribute.Valid (d : Document) (a : Attribute) : Prop
  | inline : a.disposition = some .inline → (d.layout? a.type).isSome → a.Valid d
  | const {c : Constant} : a.disposition = some .const → a.DeclaresConstant d c → a.Valid d
  | field {name : String} {kind : FieldKind} : a.disposition = none → a.name = some name →
    a.Declares d kind → a.Valid d

/-- What makes a document valid. -/
structure Document.Valid (d : Document) : Prop where
  /-- A run of bytes is a blob, or an unsigned number of some width. -/
  bytes : ∀ name size signedness, d.get? name = some (.byte size signedness) →
    signedness = none ∨
      signedness = some .unsigned ∧ ∃ width : Width, width.bytes = size.toNat
  /-- An enumeration has a width that all its values fit. -/
  enums : ∀ name size labels, d.get? name = some (.enum size labels) →
    ∃ width : Width, width.bytes = size.toNat ∧
      ∀ label ∈ labels, label.value.toNat ≤ width.maxValue
  /-- No structure depends on itself. -/
  acyclic : d.Acyclic
  attributes : ∀ name layout, d.layout? name = some layout → ∀ a ∈ layout, a.Valid d
  /-- The declared fields of a structure have different names, and none has that of a constant. -/
  distinct : ∀ name layout fs cs, d.layout? name = some layout → Spliced d layout fs cs →
    (fs.map (·.name)).Nodup ∧ ∀ f ∈ fs, f.name ∉ cs.map (·.name)
  /-- What is sized by a sibling has its size field before it, and shares it with no other. -/
  sized : ∀ name layout fs cs, d.layout? name = some layout → Spliced d layout fs cs → Sized fs
  /-- The items of a group take a byte each. -/
  occupied : ∀ name layout, d.layout? name = some layout → ∀ a ∈ layout, a.disposition = none →
    ∀ item cardinality, a.Declares d (.repeated item cardinality) → d.Occupies item.single

/-! ### Least sizes -/

section Occupies

variable {d : Document} {structures below : List Structure}

/-- A field that can hold a number takes a byte. -/
theorem FieldKind.Carries.occupies {kind : FieldKind} {width : Width} (h : kind.Carries width) :
    d.Occupies kind := by
  rcases h with rfl | rfl
  · exact .scalar
  · exact .fixedBlob width.bytes_pos

/-- A structure takes at least a byte if one of its fields does. -/
theorem minSizeOf_pos_iff {fields : List Field} :
    0 < minSizeOf structures fields ↔ ∃ f ∈ fields, 0 < f.kind.minSize structures := by
  have hsaturate : ∀ n, 0 < saturate n ↔ 0 < n := by
    intro n
    unfold saturate
    omega
  rw [minSizeOf, hsaturate, List.sum_pos_iff_exists_pos_nat]
  simp

/-- An item that has a byte at its shortest takes one, if the structures do that are laid out. -/
theorem occupies_single (hs : ∀ s ∈ structures, 0 < s.minSize → d.Occupies (.embedded s.name))
    {item : Element} (h : 0 < item.minSize structures) : d.Occupies item.single := by
  cases item with
  | struct type =>
    simp only [Element.minSize] at h
    cases hfind : findStructure? structures type with
    | none => simp [hfind] at h
    | some s =>
      rw [hfind] at h
      have := hs s (mem_of_findStructure? hfind) h
      rwa [name_of_findStructure? hfind] at this
  | scalar width => exact .scalar
  | blob size => exact .fixedBlob h

/-- So does a field. -/
theorem occupies_of_content (hs : ∀ s ∈ structures, 0 < s.minSize → d.Occupies (.embedded s.name))
    {f : Field} (hc : f.isContent) (h : 0 < f.kind.minSize structures) : d.Occupies f.kind := by
  obtain ⟨name, kind⟩ := f
  cases kind with
  | scalar width => exact .scalar
  | fixedBlob size => exact .fixedBlob h
  | variableBlob sizeField => cases h
  | embedded type =>
    have hitem : 0 < (Element.struct type).minSize structures := h
    exact occupies_single hs hitem
  | repeated item cardinality =>
    cases cardinality with
    | fixed count =>
      have hitem : 0 < item.minSize structures := Nat.pos_of_lt_mul_right h
      have hcount : 0 < count := Nat.pos_of_lt_mul_left h
      exact .repeated hcount (occupies_single hs hitem)
    | counted sizeField => cases h
    | budgeted sizeField => cases h
  | derived width content rule => cases hc

/-- Where the least size of a structure is positive, all its values take a byte. -/
theorem Built.occupies (h : Built d structures) :
    ∀ s ∈ structures, 0 < s.minSize → d.Occupies (.embedded s.name) := by
  have hsplices := h.splices
  have hlayered := h.layered
  clear h
  induction hlayered with
  | nil => simp
  | @cons s below _ hsound _ ih =>
    have hbelow := ih fun t ht => hsplices t (List.mem_cons_of_mem _ ht)
    intro t ht hpos
    rcases List.mem_cons.1 ht with rfl | ht
    · obtain ⟨layout, fs, hlayout, hspliced, hfields⟩ := hsplices t List.mem_cons_self
      rw [hsound.minSize_eq, minSizeOf_pos_iff] at hpos
      obtain ⟨g, hg, hpos⟩ := hpos
      obtain ⟨f, hf, hfg⟩ := exists_mem_of_forall₂ hfields.flip hg
      refine .embedded hlayout hspliced hf ?_
      rcases hfg with rfl | ⟨width, _, _, hk, -⟩
      · exact occupies_of_content hbelow (hspliced.isContent g hf) hpos
      · exact hk.occupies
    · exact hbelow t ht hpos

/-- Where all values of a field take a byte, its least size is positive. -/
theorem minSize_of_occupies (hl : Layered structures) (hs : ∀ s ∈ structures, s.Splices d)
    {kind : FieldKind} (h : d.Occupies kind)
    (href : ∀ type ∈ kind.references, (findStructure? structures type).isSome) :
    0 < kind.minSize structures := by
  induction h with
  | @scalar width => exact width.bytes_pos
  | fixedBlob hpos => exact hpos
  | @embedded type layout fs cs f hlayout hspliced hf _ ih =>
    obtain ⟨s, hfind⟩ := Option.isSome_iff_exists.1 (href type (by simp [FieldKind.references]))
    have hmem := mem_of_findStructure? hfind
    have hsound := hl.sound hmem
    obtain ⟨layout', fs', hlayout', hspliced', hfields⟩ := hs s hmem
    rw [name_of_findStructure? hfind] at hlayout'
    obtain rfl := Option.some.inj (hlayout.symm.trans hlayout')
    obtain ⟨rfl, -⟩ := hspliced.unique hspliced'
    have hpos : 0 < s.minSize := by
      rw [hsound.minSize_eq, minSizeOf_pos_iff]
      obtain ⟨g, hg, hfg⟩ := exists_mem_of_forall₂ hfields hf
      refine ⟨g, hg, ?_⟩
      rcases hfg with rfl | ⟨width, content, rule, -, rfl⟩
      · exact ih (hsound.references g hg)
      · exact width.bytes_pos
    simpa [FieldKind.minSize, Element.minSize, hfind] using hpos
  | @repeated item count hcount _ ih =>
    have hitem := ih (item.references_single (.fixed count) ▸ href)
    rw [item.minSize_single] at hitem
    exact Nat.mul_pos hitem hcount

end Occupies

/-! ### What is resolved is valid -/

section Resolved

variable {d : Document} {schema : Schema}

theorem Attribute.valid_of_piece {below : List Structure} {owner : String} {a : Attribute}
    {p : Piece} (hbelow : ∀ s ∈ below, s.Splices d) (h : a.piece d below owner = .ok p) :
    a.Valid d := by
  rcases hdisp : a.disposition with _ | (_ | _)
  · obtain ⟨name, kind, hname, hkind, -⟩ := (piece_field_iff hdisp).1 h
    exact .field hdisp hname hkind
  · obtain ⟨-, s, hs, -⟩ := (piece_inline_iff hdisp).1 h
    obtain ⟨layout, fs, hlayout, -⟩ := hbelow s (mem_of_findStructure? hs)
    rw [name_of_findStructure? hs] at hlayout
    exact .inline hdisp (Option.isSome_iff_exists.2 ⟨layout, hlayout⟩)
  · obtain ⟨c, hc, -⟩ := (piece_const_iff hdisp).1 h
    exact .const hdisp hc

/-- The declared fields of a structure of a resolved document are those of the schema, but for the
ones that have been turned into sizes. -/
theorem exists_becomes_of_resolve (h : Schema.resolve d = .ok schema) {name : String}
    {layout : List Attribute} {fs : List Field} {cs : List Constant}
    (hlayout : d.layout? name = some layout) (hspliced : Spliced d layout fs cs) :
    ∃ s ∈ schema.structures, s.constants = cs ∧ List.Forall₂ Field.Becomes fs s.fields := by
  obtain ⟨s, hs⟩ := Option.isSome_iff_exists.1
    (isSome_of_resolve h (Option.isSome_iff_exists.2 ⟨layout, hlayout⟩))
  have hmem := mem_of_findStructure? hs
  obtain ⟨layout', fs', hlayout', hspliced', hfields⟩ := (built_of_resolve h).splices s hmem
  rw [name_of_findStructure? hs] at hlayout'
  obtain rfl := Option.some.inj (hlayout.symm.trans hlayout')
  obtain ⟨rfl, rfl⟩ := hspliced.unique hspliced'
  exact ⟨s, hmem, rfl, hfields⟩

theorem valid_of_resolve (h : Schema.resolve d = .ok schema) : d.Valid := by
  have hl := layered_of_resolve h
  constructor
  case bytes =>
    intro name size signedness hget
    obtain ⟨old, new, hadd, -⟩ := exists_addType_of_resolve h hget
    obtain ⟨item, hitem, -⟩ := bind_eq_ok_iff.1 hadd
    rcases byteRun_eq_ok_iff.1 hitem with ⟨hsign, width, hwidth, -⟩ | ⟨hsign, -⟩
    · exact .inr ⟨hsign, width, hwidth⟩
    · exact .inl hsign
  case enums =>
    intro name size labels hget
    obtain ⟨old, new, hadd, -⟩ := exists_addType_of_resolve h hget
    obtain ⟨width, hwidth, hadd⟩ := bind_eq_ok_iff.1 hadd
    obtain ⟨_, hlabels, -⟩ := bind_eq_ok_iff.1 hadd
    refine ⟨width, scalarWidth_eq_ok_iff.1 hwidth, fun label hlabel => ?_⟩
    exact checkValue_eq_ok_iff.1 (forM_eq_ok_iff.1 hlabels label hlabel)
  case acyclic => exact acyclic_of_resolve h
  case attributes =>
    intro name layout hlayout a ha
    obtain ⟨-, below, s, p, -, -, hbelow, -, hp, -⟩ := exists_laid_of_resolve h hlayout
    obtain ⟨q, hq⟩ := exists_piece_of_pieces hp ha
    exact Attribute.valid_of_piece hbelow.splices hq
  case distinct =>
    intro name layout fs cs hlayout hspliced
    obtain ⟨s, hs, rfl, hfields⟩ := exists_becomes_of_resolve h hlayout hspliced
    have hsound := hl.sound hs
    refine ⟨names_of_becomes hfields ▸ hsound.distinct, fun f hf => ?_⟩
    obtain ⟨g, hg, hfg⟩ := exists_mem_of_forall₂ hfields hf
    rw [← hfg.name_eq]
    exact hsound.disjoint g hg
  case sized =>
    intro name layout fs cs hlayout hspliced
    obtain ⟨s, hs, -, hfields⟩ := exists_becomes_of_resolve h hlayout hspliced
    exact sized_of_sound (hl.sound hs) hfields hspliced.isContent
  case occupied =>
    intro name layout hlayout a ha hdisp item cardinality hkind
    obtain ⟨-, below, s, p, -, -, hbelow, -, hp, -⟩ := exists_laid_of_resolve h hlayout
    obtain ⟨q, hq⟩ := exists_piece_of_pieces hp ha
    obtain ⟨-, kind, -, hkind', hitems, -⟩ := (Attribute.piece_field_iff hdisp).1 hq
    obtain rfl := hkind.unique hkind'
    exact occupies_single hbelow.occupies (Attribute.nonemptyItems_repeated.1 hitems)

end Resolved

/-! ### What is valid is resolved -/

section Valid

variable {d : Document}

/-- A valid attribute contributes once the structure that it depends on is laid out. -/
theorem Attribute.Valid.exists_piece {below : List Structure} {a : Attribute} (h : a.Valid d)
    (hb : Built d below) (owner : String)
    (hdep : ∀ t, a.dependency? d = some t → (findStructure? below t.1).isSome)
    (hitems : a.disposition = none → ∀ item cardinality,
      a.Declares d (.repeated item cardinality) → d.Occupies item.single) :
    ∃ p, a.piece d below owner = .ok p := by
  rcases h with ⟨hdisp, hsome⟩ | ⟨hdisp, hc⟩ | ⟨hdisp, hname, hkind⟩
  · obtain ⟨inner, hinner⟩ := Option.isSome_iff_exists.1 hsome
    have hfound := hdep (a.type, inner) (by simp [dependency?, hdisp, hinner])
    obtain ⟨s, hs⟩ := Option.isSome_iff_exists.1 hfound
    have hget := Document.layout?_eq_some_iff.1 hinner
    exact ⟨_, (piece_inline_iff hdisp).2 ⟨hget ▸ rfl, s, hs, rfl⟩⟩
  · exact ⟨_, (piece_const_iff hdisp).2 ⟨_, hc, rfl⟩⟩
  · refine ⟨_, (piece_field_iff hdisp).2 ⟨_, _, hname, hkind, ?_, rfl⟩⟩
    rintro item cardinality rfl
    have hoccupies := hitems hdisp item cardinality hkind
    have hpos : 0 < item.single.minSize below := by
      refine minSize_of_occupies hb.layered hb.splices hoccupies fun type ht => ?_
      rw [item.references_single cardinality] at ht
      obtain ⟨inner, hinner⟩ := hkind.dependency?_of_reference hdisp hname ht
      exact hdep _ hinner
    rwa [item.minSize_single] at hpos

/-- In a valid document, attributes are laid out if the visits that they need succeed. -/
theorem exists_layAttributes {path : List String} {owner : String}
    {visit : String → List Attribute → List Structure → Except SchemaError (List Structure)}
    {layout : List Attribute} (hv : Visits d path visit)
    (hvisit : ∀ a ∈ layout, ∀ type inner, a.dependency? d = some (type, inner) →
      ∀ xs, Built d xs → ∃ ys, visit type inner xs = .ok ys)
    (hpiece : ∀ a ∈ layout, ∀ xs, Built d xs →
      (∀ t, a.dependency? d = some t → (findStructure? xs t.1).isSome) →
      ∃ p, a.piece d xs owner = .ok p)
    {xs : List Structure} (hb : Built d xs) :
    ∃ ys p, layAttributes visit d owner layout xs = .ok (ys, p) := by
  induction layout generalizing xs with
  | nil => exact ⟨xs, {}, rfl⟩
  | cons a rest ih =>
    obtain ⟨ys, hys⟩ : ∃ ys, layDependency visit d a xs = .ok ys := by
      unfold layDependency
      split
      · next type inner hdep => exact hvisit a List.mem_cons_self type inner hdep xs hb
      · exact ⟨xs, rfl⟩
    obtain ⟨hext, hdep⟩ := layDependency_extends hv hb hys
    obtain ⟨first, hfirst⟩ := hpiece a List.mem_cons_self ys hext.built hdep
    obtain ⟨zs, others, hothers⟩ := ih (fun b hb => hvisit b (List.mem_cons_of_mem _ hb))
      (fun b hb => hpiece b (List.mem_cons_of_mem _ hb)) hext.built
    refine ⟨zs, first ++ others, ?_⟩
    rw [layAttributes_cons, hys]
    refine bind_eq_ok_iff.2 ⟨ys, rfl, bind_eq_ok_iff.2 ⟨first, hfirst, ?_⟩⟩
    exact bind_eq_ok_iff.2 ⟨(zs, others), hothers, rfl⟩

namespace Document.Valid

/-- The pieces of a layout of a valid document can be assembled. -/
theorem exists_assemble (h : d.Valid) {below : List Structure} {name : String}
    {layout : List Attribute} {p : Piece} (hb : Built d below)
    (hlayout : d.layout? name = some layout) (hready : Ready d below layout)
    (hp : pieces d below name layout = .ok p) : ∃ s, assemble below name p = .ok s := by
  obtain ⟨fs, hspliced, hfields⟩ := spliced_of_pieces hb.splices hp
  obtain ⟨hnames, hconstants⟩ := h.distinct name layout fs p.constants hlayout hspliced
  have hsame := names_of_becomes hfields
  have hdistinct : (p.fields.map (·.name)).Nodup := hsame ▸ hnames
  obtain ⟨bound, hbound⟩ :=
    (h.sized name layout fs p.constants hlayout hspliced).exists_bound hfields hdistinct
      (sound_pieces hb.layered hready hp).wired (pending_pieces hb.layered hready hp hdistinct)
  refine ⟨_, assemble_eq_ok_iff.2 ⟨hdistinct, fun g hg => ?_, bound, hbound, rfl⟩⟩
  obtain ⟨f, hf, hfg⟩ := exists_mem_of_forall₂ hfields.flip hg
  rw [Field.Becomes.name_eq hfg]
  exact hconstants f hf

/-- In a valid document no visit fails. -/
theorem exists_visit (h : d.Valid) {room : Nat} {path : List String} {name : String}
    {layout : List Attribute} {xs : List Structure} (hw : Waiting d path name)
    (hlayout : d.layout? name = some layout) (hroom : d.types.length ≤ path.length + room)
    (hb : Built d xs) : ∃ ys, visit d room path name layout xs = .ok ys := by
  induction room generalizing path name layout xs with
  | zero =>
    unfold visit
    split
    · exact ⟨xs, rfl⟩
    split
    · next hmem =>
      obtain ⟨other, hcycle⟩ := (hw.cycle hmem).transGen
      exact absurd hcycle (h.acyclic other)
    · next hnew =>
      have := hw.length_lt hlayout hnew
      omega
  | succ room ih =>
    unfold visit
    split
    · exact ⟨xs, rfl⟩
    split
    · next hmem =>
      obtain ⟨other, hcycle⟩ := (hw.cycle hmem).transGen
      exact absurd hcycle (h.acyclic other)
    · next hnew =>
      have hvisits := visit_extends d room (name :: path)
      obtain ⟨ys, p, hlay⟩ : ∃ ys p,
          layAttributes (visit d room (name :: path)) d name layout xs = .ok (ys, p) := by
        refine exists_layAttributes hvisits ?_ ?_ hb
        · intro a ha type inner hdep zs hzs
          refine ih (hw.push hnew (dependsOn_of_dependency? hlayout ha hdep))
            (Attribute.layout?_of_dependency? hdep) ?_ hzs
          rw [List.length_cons]
          omega
        · intro a ha zs hzs hdep
          exact (h.attributes name layout hlayout a ha).exists_piece hzs name hdep
            (h.occupied name layout hlayout a ha)
      obtain ⟨hext, hready, hp⟩ := layAttributes_extends hvisits hb hlay
      obtain ⟨s, hs⟩ := h.exists_assemble hext.built hlayout hready hp
      exact ⟨s :: ys, bind_eq_ok_iff.2 ⟨(ys, p), hlay, bind_eq_ok_iff.2 ⟨s, hs, rfl⟩⟩⟩

theorem exists_addType (h : d.Valid) {schema : Schema} {name : String} {descriptor : Descriptor}
    (hget : d.get? name = some descriptor) (hb : Built d schema.structures) :
    ∃ schema', Schema.addType d schema name descriptor = .ok schema' := by
  cases descriptor with
  | struct layout =>
    obtain ⟨ys, hys⟩ := h.exists_visit (.start name) (layout?_eq_some_iff.2 hget)
      (Nat.le_of_eq (Nat.zero_add _).symm) hb
    exact ⟨_, bind_eq_ok_iff.2 ⟨ys, hys, rfl⟩⟩
  | enum size labels =>
    obtain ⟨width, hwidth, hlabels⟩ := h.enums name size labels hget
    have hchecks : labels.forM (fun label => checkValue name label.name width label.value) =
        .ok () :=
      forM_eq_ok_iff.2 fun label hlabel => checkValue_eq_ok_iff.2 (hlabels label hlabel)
    refine ⟨{ schema with enumerations := schema.enumerations ++ [⟨name, width, labels⟩] }, ?_⟩
    refine bind_eq_ok_iff.2 ⟨width, scalarWidth_eq_ok_iff.2 hwidth, ?_⟩
    exact bind_eq_ok_iff.2 ⟨(), hchecks, rfl⟩
  | byte size signedness =>
    obtain ⟨item, hitem⟩ : ∃ item, byteRun name size signedness = .ok item := by
      rcases h.bytes name size signedness hget with rfl | ⟨rfl, width, hwidth⟩
      · exact ⟨.blob size.toNat, byteRun_eq_ok_iff.2 (.inr ⟨rfl, rfl⟩)⟩
      · exact ⟨.scalar width, byteRun_eq_ok_iff.2 (.inl ⟨rfl, width, hwidth, rfl⟩)⟩
    exact ⟨schema, bind_eq_ok_iff.2 ⟨item, hitem, rfl⟩⟩

/-- A valid document is resolved. -/
theorem exists_resolve (h : d.Valid) : ∃ schema, Schema.resolve d = .ok schema := by
  refine exists_foldlM_eq_ok (P := fun schema => Built d schema.structures) ?_ .nil
  rintro ⟨name, descriptor⟩ hmem schema hb
  have hget := d.get?_of_mem hmem
  obtain ⟨schema', hadd⟩ := h.exists_addType hget hb
  exact ⟨schema', hadd, (addType_extends hget hb hadd).built⟩

/-- The layout of every structure of a valid document comes to some fields and constants, so that
validity has something to say of each. -/
theorem exists_spliced (h : d.Valid) {name : String} {layout : List Attribute}
    (hlayout : d.layout? name = some layout) : ∃ fs cs, Spliced d layout fs cs := by
  obtain ⟨schema, hschema⟩ := h.exists_resolve
  obtain ⟨-, below, s, p, -, -, hbelow, -, hp, -⟩ := exists_laid_of_resolve hschema hlayout
  obtain ⟨fs, hspliced, -⟩ := spliced_of_pieces hbelow.splices hp
  exact ⟨fs, p.constants, hspliced⟩

end Document.Valid

end Valid

/-- Resolution accepts the valid documents and no others. -/
theorem resolve_iff_valid (d : Document) : (∃ schema, Schema.resolve d = .ok schema) ↔ d.Valid := by
  constructor
  · rintro ⟨schema, h⟩
    exact valid_of_resolve h
  · exact Document.Valid.exists_resolve

end WireSchema
