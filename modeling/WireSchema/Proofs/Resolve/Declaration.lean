import WireSchema.Resolve
import WireSchema.Proofs.Resolve.Layered

/-!
# What a layout declares

An attribute declares a field, a constant, or that the fields and constants of another structure
take its place. What a layout comes to in this way is said here of the document alone, without any
account of how it is worked out: no structure is laid out on the way, and no size field is bound.

* `Attribute.Declares`, `Attribute.DeclaresConstant`: the kind of field and the constant that an
  attribute declares.
* `Spliced`: the declared fields and constants of a layout, with inline attributes replaced by what
  their structures declare.
* `Attribute.piece_field_iff`, `piece_const_iff`, `piece_inline_iff`: an attribute contributes what
  it declares. These say all that there is to know of a contribution; what follows is derived from
  them.
-/

namespace WireSchema

/-- A value of the named type, as an item of a group. -/
inductive Document.HasItem (d : Document) (type : String) : Element → Prop
  | scalar {size : UInt64} {width : Width} : d.get? type = some (.byte size (some .unsigned)) →
    width.bytes = size.toNat → d.HasItem type (.scalar width)
  | blob {size : UInt64} : d.get? type = some (.byte size none) → d.HasItem type (.blob size.toNat)
  | enum {size : UInt64} {labels : List Label} {width : Width} :
    d.get? type = some (.enum size labels) → width.bytes = size.toNat →
    d.HasItem type (.scalar width)
  | struct {layout : List Attribute} : d.get? type = some (.struct layout) →
    d.HasItem type (.struct type)

namespace Attribute

/-- The attribute declares a field of the given kind. Raw bytes have a size, which is either a
number or the name of a sibling, and no sizing; a field of a named type is a single item, or a group
of as many items as a number or a sibling says, and only in the latter case it may have a sizing. -/
inductive Declares (d : Document) (a : Attribute) : FieldKind → Prop
  | rawScalar {size : UInt64} {width : Width} : a.type = rawBytes → a.sizing = none →
    a.size = some (.fixed size) → a.signedness = some .unsigned → width.bytes = size.toNat →
    a.Declares d (.scalar width)
  | rawBlob {size : UInt64} : a.type = rawBytes → a.sizing = none →
    a.size = some (.fixed size) → a.signedness = none → a.Declares d (.fixedBlob size.toNat)
  | sizedBlob {sizeField : String} : a.type = rawBytes → a.sizing = none →
    a.size = some (.field sizeField) → a.Declares d (.variableBlob sizeField)
  | single {item : Element} : a.type ≠ rawBytes → d.HasItem a.type item → a.sizing = none →
    a.size = none → a.Declares d item.single
  | fixed {item : Element} {count : UInt64} : a.type ≠ rawBytes → d.HasItem a.type item →
    a.sizing = none → a.size = some (.fixed count) →
    a.Declares d (.repeated item (.fixed count.toNat))
  | counted {item : Element} {sizeField : String} : a.type ≠ rawBytes → d.HasItem a.type item →
    a.sizing ≠ some .bytes → a.size = some (.field sizeField) →
    a.Declares d (.repeated item (.counted sizeField))
  | budgeted {item : Element} {sizeField : String} : a.type ≠ rawBytes → d.HasItem a.type item →
    a.sizing = some .bytes → a.size = some (.field sizeField) →
    a.Declares d (.repeated item (.budgeted sizeField))

/-- The attribute has the type of a scalar of the given width: raw bytes with a number as their
size, or a declared run of bytes or enumeration. -/
inductive HasWidth (d : Document) (a : Attribute) (width : Width) : Prop
  | raw {size : UInt64} : a.type = rawBytes → a.size = some (.fixed size) →
    width.bytes = size.toNat → a.HasWidth d width
  | byte {size : UInt64} {signedness : Option Signedness} : a.type ≠ rawBytes →
    d.get? a.type = some (.byte size signedness) → width.bytes = size.toNat → a.HasWidth d width
  | enum {size : UInt64} {labels : List Label} : a.type ≠ rawBytes →
    d.get? a.type = some (.enum size labels) → width.bytes = size.toNat → a.HasWidth d width

/-- The attribute declares the given constant, which fits its width. -/
structure DeclaresConstant (d : Document) (a : Attribute) (c : Constant) : Prop where
  name : a.name = some c.name
  value : a.value = some c.value
  width : a.HasWidth d c.width
  fits : c.value.toNat ≤ c.width.maxValue

end Attribute

/-- The fields and constants that a layout declares, where those of the structure of an inline
attribute take its place. -/
inductive Spliced (d : Document) : List Attribute → List Field → List Constant → Prop
  | nil : Spliced d [] [] []
  | inline {a : Attribute} {rest inner : List Attribute} {fs gs : List Field}
    {cs ks : List Constant} : a.disposition = some .inline → d.layout? a.type = some inner →
    Spliced d inner fs cs → Spliced d rest gs ks → Spliced d (a :: rest) (fs ++ gs) (cs ++ ks)
  | const {a : Attribute} {rest : List Attribute} {gs : List Field} {c : Constant}
    {ks : List Constant} : a.disposition = some .const → a.DeclaresConstant d c →
    Spliced d rest gs ks → Spliced d (a :: rest) gs (c :: ks)
  | field {a : Attribute} {rest : List Attribute} {name : String} {kind : FieldKind}
    {gs : List Field} {ks : List Constant} : a.disposition = none → a.name = some name →
    a.Declares d kind → Spliced d rest gs ks → Spliced d (a :: rest) (⟨name, kind⟩ :: gs) ks

/-! ### At most one thing is declared -/

section Unique

variable {d : Document} {a : Attribute}

theorem Document.HasItem.unique {type : String} {x y : Element} (hx : d.HasItem type x)
    (hy : d.HasItem type y) : x = y := by
  cases hx <;> cases hy <;> grind [Width.eq_of_bytes_eq]

theorem Attribute.Declares.unique {k l : FieldKind} (hk : a.Declares d k) (hl : a.Declares d l) :
    k = l := by
  cases hk <;> cases hl <;> grind [Width.eq_of_bytes_eq, Document.HasItem.unique]

theorem Attribute.HasWidth.unique {v w : Width} (hv : a.HasWidth d v) (hw : a.HasWidth d w) :
    v = w := by
  cases hv <;> cases hw <;> grind [Width.eq_of_bytes_eq]

theorem Attribute.DeclaresConstant.unique {b c : Constant} (hb : a.DeclaresConstant d b)
    (hc : a.DeclaresConstant d c) : b = c := by
  obtain ⟨bname, bwidth, bvalue⟩ := b
  obtain ⟨cname, cwidth, cvalue⟩ := c
  have hname : bname = cname := Option.some.inj (hb.name.symm.trans hc.name)
  have hvalue : bvalue = cvalue := Option.some.inj (hb.value.symm.trans hc.value)
  have hwidth : bwidth = cwidth := hb.width.unique hc.width
  rw [hname, hvalue, hwidth]

/-- A layout comes to one list of fields and one of constants. -/
theorem Spliced.unique {layout : List Attribute} {fs gs : List Field} {cs ks : List Constant}
    (h : Spliced d layout fs cs) (h' : Spliced d layout gs ks) : fs = gs ∧ cs = ks := by
  induction h generalizing gs ks with
  | nil =>
    cases h'
    exact ⟨rfl, rfl⟩
  | inline hdisp hinner _ _ ihinner ihrest =>
    cases h' with
    | inline _ hinner' hspliced hrest =>
      obtain rfl := Option.some.inj (hinner.symm.trans hinner')
      obtain ⟨rfl, rfl⟩ := ihinner hspliced
      obtain ⟨rfl, rfl⟩ := ihrest hrest
      exact ⟨rfl, rfl⟩
    | const hdisp' => cases hdisp.symm.trans hdisp'
    | field hdisp' => cases hdisp.symm.trans hdisp'
  | const hdisp hc _ ih =>
    cases h' with
    | inline hdisp' => cases hdisp.symm.trans hdisp'
    | const _ hc' hrest =>
      obtain rfl := hc.unique hc'
      obtain ⟨rfl, rfl⟩ := ih hrest
      exact ⟨rfl, rfl⟩
    | field hdisp' => cases hdisp.symm.trans hdisp'
  | field hdisp hname hkind _ ih =>
    cases h' with
    | inline hdisp' => cases hdisp.symm.trans hdisp'
    | const hdisp' => cases hdisp.symm.trans hdisp'
    | field _ hname' hkind' hrest =>
      obtain rfl := Option.some.inj (hname.symm.trans hname')
      obtain rfl := hkind.unique hkind'
      obtain ⟨rfl, rfl⟩ := ih hrest
      exact ⟨rfl, rfl⟩

end Unique

/-! ### Dependencies of declared fields -/

section Dependency

variable {d : Document} {a : Attribute}

theorem Document.layout?_eq_some_iff {name : String} {layout : List Attribute} :
    d.layout? name = some layout ↔ d.get? name = some (.struct layout) := by
  unfold layout?
  split
  · next hget => simp [hget]
  · next hget => simpa using hget layout

theorem Element.minSize_single {structures : List Structure} (item : Element) :
    item.single.minSize structures = item.minSize structures := by
  cases item <;> rfl

theorem Element.references_single (item : Element) (cardinality : Cardinality) :
    item.single.references = (FieldKind.repeated item cardinality).references := by
  cases item <;> rfl

namespace Attribute

/-- An attribute depends on the structure of its type, if on any. -/
theorem eq_layout?_of_dependency? {t : String × List Attribute} (h : a.dependency? d = some t) :
    t.1 = a.type ∧ d.layout? a.type = some t.2 := by
  have hmap : (d.layout? a.type).map (a.type, ·) = some t →
      t.1 = a.type ∧ d.layout? a.type = some t.2 := by
    intro h
    obtain ⟨layout, hl, rfl⟩ := Option.map_eq_some_iff.1 h
    exact ⟨rfl, hl⟩
  unfold dependency? at h
  split at h
  · exact hmap h
  · cases h
  · split at h
    · exact hmap h
    · cases h

theorem fst_of_dependency? {t : String × List Attribute} (h : a.dependency? d = some t) :
    t.1 = a.type := (eq_layout?_of_dependency? h).1

/-- What an attribute depends on is a structure of the document. -/
theorem layout?_of_dependency? {t : String × List Attribute} (h : a.dependency? d = some t) :
    d.layout? t.1 = some t.2 := by
  obtain ⟨htype, hlayout⟩ := eq_layout?_of_dependency? h
  rwa [htype]

/-- A field of a structure type depends on it. -/
theorem dependency?_of_struct {name : String} {layout : List Attribute}
    (hdisp : a.disposition = none) (hname : a.name = some name) (htype : a.type ≠ rawBytes)
    (hlayout : d.layout? a.type = some layout) : a.dependency? d = some (a.type, layout) := by
  simp [dependency?, hdisp, hname, htype, hlayout]

theorem Declares.isContent {kind : FieldKind} (h : a.Declares d kind) (name : String) :
    (Field.mk name kind).isContent := by
  cases h with
  | @single item => cases item <;> rfl
  | _ => rfl

/-- The structure that a declared field refers to is the one that its attribute depends on. -/
theorem Declares.dependency?_of_reference {name type : String} {kind : FieldKind}
    (h : a.Declares d kind) (hdisp : a.disposition = none) (hname : a.name = some name)
    (ht : type ∈ kind.references) : ∃ inner, a.dependency? d = some (type, inner) := by
  have hitem : ∀ item, a.type ≠ rawBytes → d.HasItem a.type item →
      type ∈ item.single.references → ∃ inner, a.dependency? d = some (type, inner) := by
    intro item htype hitem ht
    cases hitem with
    | scalar => cases ht
    | blob => cases ht
    | enum => cases ht
    | struct hget =>
      obtain rfl := List.mem_singleton.1 ht
      exact ⟨_, dependency?_of_struct hdisp hname htype (Document.layout?_eq_some_iff.2 hget)⟩
  cases h with
  | rawScalar => cases ht
  | rawBlob => cases ht
  | sizedBlob => cases ht
  | single htype hhas => exact hitem _ htype hhas ht
  | @fixed item count htype hhas =>
    exact hitem item htype hhas (item.references_single (.fixed _) ▸ ht)
  | @counted item sizeField htype hhas =>
    exact hitem item htype hhas (item.references_single (.counted sizeField) ▸ ht)
  | @budgeted item sizeField htype hhas =>
    exact hitem item htype hhas (item.references_single (.budgeted sizeField) ▸ ht)

end Attribute

/-- What is declared is content. -/
theorem Spliced.isContent {layout : List Attribute} {fs : List Field} {cs : List Constant}
    (h : Spliced d layout fs cs) : ∀ f ∈ fs, f.isContent := by
  induction h with
  | nil => simp
  | inline _ _ _ _ ihinner ihrest =>
    intro f hf
    rcases List.mem_append.1 hf with hf | hf
    · exact ihinner f hf
    · exact ihrest f hf
  | const _ _ _ ih => exact ih
  | field _ _ hkind _ ih =>
    intro f hf
    rcases List.mem_cons.1 hf with rfl | hf
    · exact hkind.isContent _
    · exact ih f hf

end Dependency

/-! ### Attributes contribute what they declare -/

section Contributions

variable {type : String} {size : UInt64} {width : Width} {item : Element}

theorem scalarWidth_eq_ok_iff : scalarWidth type size = .ok width ↔ width.bytes = size.toNat := by
  unfold scalarWidth
  constructor
  · intro h
    split at h
    · next hw =>
      cases h
      exact Width.bytes_of_ofSize? hw
    · cases h
  · intro h
    rw [← h, Width.ofSize?_bytes]

theorem checkValue_eq_ok_iff {type name : String} {value : UInt64} :
    checkValue type name width value = .ok () ↔ value.toNat ≤ width.maxValue := by
  unfold checkValue
  split <;> simp [*]

theorem byteRun_eq_ok_iff {signedness : Option Signedness} :
    byteRun type size signedness = .ok item ↔
      (signedness = some .unsigned ∧ ∃ width : Width, width.bytes = size.toNat ∧
        item = .scalar width) ∨
      (signedness = none ∧ item = .blob size.toNat) := by
  rcases signedness with _ | (_ | _)
  · simp only [byteRun, pure_eq_ok_iff]
    simp [eq_comm]
  · simp only [byteRun, bind_eq_ok_iff, pure_eq_ok_iff, scalarWidth_eq_ok_iff]
    simp [eq_comm]
  · simp [byteRun]

end Contributions

namespace Attribute

variable {d : Document} {below : List Structure} {owner name : String} {a : Attribute} {p : Piece}

theorem requiredName_eq_ok_iff : a.requiredName owner = .ok name ↔ a.name = some name := by
  unfold requiredName
  split
  · next h => simp [h]
  · next h => simp [h]

theorem declared_eq_ok_iff {descriptor : Descriptor} :
    a.declared d owner = .ok descriptor ↔ d.get? a.type = some descriptor := by
  unfold declared
  split
  · next h => simp [h]
  · next h => simp [h]

theorem element_eq_ok_iff {item : Element} :
    (∃ descriptor, d.get? a.type = some descriptor ∧ a.element descriptor = .ok item) ↔
      d.HasItem a.type item := by
  constructor
  · rintro ⟨descriptor, hget, h⟩
    cases descriptor with
    | byte size signedness =>
      rcases byteRun_eq_ok_iff.1 h with ⟨rfl, width, hwidth, rfl⟩ | ⟨rfl, rfl⟩
      · exact .scalar hget hwidth
      · exact .blob hget
    | enum size labels =>
      obtain ⟨width, hwidth, h⟩ := bind_eq_ok_iff.1 h
      cases h
      exact .enum hget (scalarWidth_eq_ok_iff.1 hwidth)
    | struct layout =>
      cases h
      exact .struct hget
  · rintro (⟨hget, hwidth⟩ | hget | ⟨hget, hwidth⟩ | hget)
    · exact ⟨_, hget, byteRun_eq_ok_iff.2 (.inl ⟨rfl, _, hwidth, rfl⟩)⟩
    · exact ⟨_, hget, rfl⟩
    · exact ⟨_, hget, bind_eq_ok_iff.2 ⟨_, scalarWidth_eq_ok_iff.2 hwidth, rfl⟩⟩
    · exact ⟨_, hget, rfl⟩

theorem constantWidth_eq_ok_iff {width : Width} :
    a.constantWidth d owner name = .ok width ↔ a.HasWidth d width := by
  unfold constantWidth
  split
  · next htype =>
    constructor
    · intro h
      split at h
      · next size hsize => exact .raw htype hsize (scalarWidth_eq_ok_iff.1 h)
      · cases h
    · rintro (⟨-, hsize, hwidth⟩ | ⟨hne, -, -⟩ | ⟨hne, -, -⟩)
      · simp only [hsize, scalarWidth_eq_ok_iff, hwidth]
      · exact absurd htype hne
      · exact absurd htype hne
  · next htype =>
    simp only [bind_eq_ok_iff, declared_eq_ok_iff]
    constructor
    · rintro ⟨descriptor, hget, h⟩
      cases descriptor with
      | byte size signedness => exact .byte htype hget (scalarWidth_eq_ok_iff.1 h)
      | enum size labels => exact .enum htype hget (scalarWidth_eq_ok_iff.1 h)
      | struct layout => cases h
    · rintro (⟨heq, -, -⟩ | ⟨-, hget, hwidth⟩ | ⟨-, hget, hwidth⟩)
      · exact absurd heq htype
      · exact ⟨_, hget, scalarWidth_eq_ok_iff.2 hwidth⟩
      · exact ⟨_, hget, scalarWidth_eq_ok_iff.2 hwidth⟩

theorem constant_eq_ok_iff {c : Constant} :
    a.constant d owner = .ok c ↔ a.DeclaresConstant d c := by
  simp only [constant, bind_eq_ok_iff, requiredName_eq_ok_iff]
  constructor
  · rintro ⟨name, hname, h⟩
    cases hvalue : a.value with
    | none =>
      rw [hvalue] at h
      cases h
    | some value =>
      simp only [hvalue] at h
      obtain ⟨width, hwidth, h⟩ := bind_eq_ok_iff.1 h
      obtain ⟨_, hfits, h⟩ := bind_eq_ok_iff.1 h
      cases h
      exact ⟨hname, hvalue, constantWidth_eq_ok_iff.1 hwidth, checkValue_eq_ok_iff.1 hfits⟩
  · intro h
    refine ⟨c.name, h.name, ?_⟩
    simp only [h.value]
    refine bind_eq_ok_iff.2 ⟨c.width, constantWidth_eq_ok_iff.2 h.width, ?_⟩
    exact bind_eq_ok_iff.2 ⟨(), checkValue_eq_ok_iff.2 h.fits, rfl⟩

/-- A field of its own, with the binding that it waits for. -/
def fieldPiece (f : Field) : Piece := { fields := [f], bindings := f.bindings }

theorem groupPiece_eq_ok_iff {item : Element} {cardinality : Cardinality}
    {bindings : List Binding} :
    groupPiece below owner name item cardinality bindings = .ok p ↔
      0 < item.minSize below ∧
        p = { fields := [⟨name, .repeated item cardinality⟩], bindings := bindings } := by
  unfold groupPiece
  split
  · next h => simp [h]
  · next h => simp [Nat.pos_of_ne_zero h, eq_comm]

/-- Whether the items of a group are known to take a byte. -/
def NonemptyItems (below : List Structure) (kind : FieldKind) : Prop :=
  ∀ item cardinality, kind = .repeated item cardinality → 0 < item.minSize below

theorem nonemptyItems_repeated {item : Element} {cardinality : Cardinality} :
    NonemptyItems below (.repeated item cardinality) ↔ 0 < item.minSize below := by
  constructor
  · intro h
    exact h item cardinality rfl
  · rintro h _ _ ⟨⟩
    exact h

theorem rawField_eq_ok_iff (htype : a.type = rawBytes) :
    a.rawField owner name = .ok p ↔
      ∃ kind, a.Declares d kind ∧ NonemptyItems below kind ∧ p = fieldPiece ⟨name, kind⟩ := by
  constructor
  · intro h
    unfold rawField at h
    split at h
    · cases h
    · cases h
    · next size hsize hsizing =>
      obtain ⟨item, hitem, h⟩ := bind_eq_ok_iff.1 h
      cases h
      rcases byteRun_eq_ok_iff.1 hitem with ⟨hsign, width, hwidth, rfl⟩ | ⟨hsign, rfl⟩
      · exact ⟨_, .rawScalar htype hsizing hsize hsign hwidth, nofun, rfl⟩
      · exact ⟨_, .rawBlob htype hsizing hsize hsign, nofun, rfl⟩
    · next sizeField hsize hsizing =>
      cases h
      exact ⟨_, .sizedBlob htype hsizing hsize, nofun, rfl⟩
  · rintro ⟨kind, hkind, -, rfl⟩
    unfold rawField
    cases hkind with
    | rawScalar _ hsizing hsize hsign hwidth =>
      simp only [hsize, hsizing]
      exact bind_eq_ok_iff.2 ⟨_, byteRun_eq_ok_iff.2 (.inl ⟨hsign, _, hwidth, rfl⟩), rfl⟩
    | rawBlob _ hsizing hsize hsign =>
      simp only [hsize, hsizing]
      exact bind_eq_ok_iff.2 ⟨_, byteRun_eq_ok_iff.2 (.inr ⟨hsign, rfl⟩), rfl⟩
    | sizedBlob _ hsizing hsize =>
      simp only [hsize, hsizing]
      rfl
    | single hne => exact absurd htype hne
    | fixed hne => exact absurd htype hne
    | counted hne => exact absurd htype hne
    | budgeted hne => exact absurd htype hne

theorem typedField_eq_ok_iff (htype : a.type ≠ rawBytes) :
    a.typedField d below owner name = .ok p ↔
      ∃ kind, a.Declares d kind ∧ NonemptyItems below kind ∧ p = fieldPiece ⟨name, kind⟩ := by
  simp only [typedField, bind_eq_ok_iff, declared_eq_ok_iff]
  constructor
  · rintro ⟨descriptor, hget, item, hitem, h⟩
    have hitem : d.HasItem a.type item := element_eq_ok_iff.1 ⟨descriptor, hget, hitem⟩
    split at h
    · next hsize hsizing =>
      cases h
      refine ⟨_, .single htype hitem hsizing hsize, ?_, ?_⟩
      · cases item <;> exact nofun
      · cases item <;> rfl
    · cases h
    · cases h
    · next count hsize hsizing =>
      obtain ⟨hpos, rfl⟩ := groupPiece_eq_ok_iff.1 h
      exact ⟨_, .fixed htype hitem hsizing hsize, nonemptyItems_repeated.2 hpos, rfl⟩
    · next sizeField hsize hsizing =>
      obtain ⟨hpos, rfl⟩ := groupPiece_eq_ok_iff.1 h
      exact ⟨_, .budgeted htype hitem hsizing hsize, nonemptyItems_repeated.2 hpos, rfl⟩
    · next sizeField hsize hsizing =>
      obtain ⟨hpos, rfl⟩ := groupPiece_eq_ok_iff.1 h
      exact ⟨_, .counted htype hitem hsizing hsize, nonemptyItems_repeated.2 hpos, rfl⟩
  · rintro ⟨kind, hkind, hpos, rfl⟩
    cases hkind with
    | rawScalar heq => exact absurd heq htype
    | rawBlob heq => exact absurd heq htype
    | sizedBlob heq => exact absurd heq htype
    | @single item _ hitem hsizing hsize =>
      obtain ⟨descriptor, hget, helement⟩ := element_eq_ok_iff.2 hitem
      refine ⟨descriptor, hget, item, helement, ?_⟩
      simp only [hsize, hsizing]
      cases item <;> rfl
    | fixed _ hitem hsizing hsize =>
      obtain ⟨descriptor, hget, helement⟩ := element_eq_ok_iff.2 hitem
      refine ⟨descriptor, hget, _, helement, ?_⟩
      simp only [hsize, hsizing]
      exact groupPiece_eq_ok_iff.2 ⟨nonemptyItems_repeated.1 hpos, rfl⟩
    | counted _ hitem hsizing hsize =>
      obtain ⟨descriptor, hget, helement⟩ := element_eq_ok_iff.2 hitem
      refine ⟨descriptor, hget, _, helement, ?_⟩
      rcases hs : a.sizing with _ | (_ | _)
      · simp only [hsize]
        exact groupPiece_eq_ok_iff.2 ⟨nonemptyItems_repeated.1 hpos, rfl⟩
      · simp only [hsize]
        exact groupPiece_eq_ok_iff.2 ⟨nonemptyItems_repeated.1 hpos, rfl⟩
      · exact absurd hs hsizing
    | budgeted _ hitem hsizing hsize =>
      obtain ⟨descriptor, hget, helement⟩ := element_eq_ok_iff.2 hitem
      refine ⟨descriptor, hget, _, helement, ?_⟩
      simp only [hsize, hsizing]
      exact groupPiece_eq_ok_iff.2 ⟨nonemptyItems_repeated.1 hpos, rfl⟩

/-- An attribute without a disposition contributes the field that it declares. -/
theorem piece_field_iff (hdisp : a.disposition = none) :
    a.piece d below owner = .ok p ↔
      ∃ name kind, a.name = some name ∧ a.Declares d kind ∧ NonemptyItems below kind ∧
        p = fieldPiece ⟨name, kind⟩ := by
  have hfield : ∀ name,
      (if a.type = rawBytes then a.rawField owner name else a.typedField d below owner name) =
          .ok p ↔
        ∃ kind, a.Declares d kind ∧ NonemptyItems below kind ∧ p = fieldPiece ⟨name, kind⟩ := by
    intro name
    split
    · next htype => exact rawField_eq_ok_iff htype
    · next htype => exact typedField_eq_ok_iff htype
  simp only [piece, hdisp, bind_eq_ok_iff, requiredName_eq_ok_iff, hfield]
  constructor
  · rintro ⟨name, hname, kind, hkind⟩
    exact ⟨name, kind, hname, hkind⟩
  · rintro ⟨name, kind, hname, hkind⟩
    exact ⟨name, hname, kind, hkind⟩

/-- A constant contributes itself. -/
theorem piece_const_iff (hdisp : a.disposition = some .const) :
    a.piece d below owner = .ok p ↔ ∃ c, a.DeclaresConstant d c ∧ p = { constants := [c] } := by
  simp only [piece, hdisp, bind_eq_ok_iff, constant_eq_ok_iff, pure_eq_ok_iff, eq_comm (a := p)]

/-- An inline attribute contributes the fields and constants of its structure. -/
theorem piece_inline_iff (hdisp : a.disposition = some .inline) :
    a.piece d below owner = .ok p ↔
      (d.get? a.type).isSome ∧ ∃ s, findStructure? below a.type = some s ∧
        p = { fields := s.fields, constants := s.constants } := by
  simp only [piece, hdisp, bind_eq_ok_iff, declared_eq_ok_iff, Option.isSome_iff_exists]
  constructor
  · rintro ⟨descriptor, hget, h⟩
    split at h
    · next s hs =>
      cases h
      exact ⟨⟨descriptor, hget⟩, s, hs, rfl⟩
    · cases h
  · rintro ⟨⟨descriptor, hget⟩, s, hs, rfl⟩
    refine ⟨descriptor, hget, ?_⟩
    rw [hs]
    rfl

end Attribute

/-! ### What is declared depends on the types that are named -/

section Agree

variable {d d' : Document}

theorem Document.HasItem.of_get {type : String} {item : Element}
    (hget : d'.get? type = d.get? type) (h : d.HasItem type item) : d'.HasItem type item := by
  cases h with
  | scalar h hwidth => exact .scalar (hget.trans h) hwidth
  | blob h => exact .blob (hget.trans h)
  | enum h hwidth => exact .enum (hget.trans h) hwidth
  | struct h => exact .struct (hget.trans h)

namespace Attribute

variable {a : Attribute}

theorem Declares.of_get {kind : FieldKind}
    (hget : a.type ≠ rawBytes → d'.get? a.type = d.get? a.type) (h : a.Declares d kind) :
    a.Declares d' kind := by
  cases h with
  | rawScalar htype hsizing hsize hsign hwidth =>
    exact .rawScalar htype hsizing hsize hsign hwidth
  | rawBlob htype hsizing hsize hsign => exact .rawBlob htype hsizing hsize hsign
  | sizedBlob htype hsizing hsize => exact .sizedBlob htype hsizing hsize
  | single htype hitem => exact .single htype (hitem.of_get (hget htype)) ‹_› ‹_›
  | fixed htype hitem => exact .fixed htype (hitem.of_get (hget htype)) ‹_› ‹_›
  | counted htype hitem => exact .counted htype (hitem.of_get (hget htype)) ‹_› ‹_›
  | budgeted htype hitem => exact .budgeted htype (hitem.of_get (hget htype)) ‹_› ‹_›

theorem HasWidth.of_get {width : Width}
    (hscalar : d.layout? a.type = none → d'.get? a.type = d.get? a.type)
    (h : a.HasWidth d width) : a.HasWidth d' width := by
  cases h with
  | raw htype hsize hwidth => exact .raw htype hsize hwidth
  | byte htype hget hwidth =>
    exact .byte htype ((hscalar (by simp [Document.layout?, hget])).trans hget) hwidth
  | enum htype hget hwidth =>
    exact .enum htype ((hscalar (by simp [Document.layout?, hget])).trans hget) hwidth

end Attribute

end Agree

end WireSchema
