import WireSchema.Proofs.Resolve.Validity

/-!
# Modifiers

Two parts of an attribute modify how it is laid out: the sizing, which says what a sibling measures,
and the signedness, which makes a number of raw bytes. Resolution refuses a modifier that is out of
place, but only where it looks at it. It looks at the sizing of an attribute that declares a field,
and at the signedness of one that declares raw bytes of a given size. The others are passed over:
those of constants and of structures that are put inline, the signedness next to a named type, and
that of a blob that is sized by a sibling.

* `Document.heeded`: the document without the modifiers that are passed over.
* `Attribute.piece_heeded`, `visit_heeded`, `resolve_heeded`: they make no difference, be it to what
  an attribute contributes, to a visit or to the whole document.
* `modifiers_of_resolve`: the modifiers that are left in a resolved document are in place.
* `stray_modifiers`: modifiers out of place, all of which are passed over.
-/

namespace WireSchema

/-! ### What is passed over -/

namespace Attribute

/-- The sizing of an attribute that declares a field. -/
def heededSizing (a : Attribute) : Option Sizing :=
  match a.disposition with
  | none => a.sizing
  | some _ => none

/-- The signedness of an attribute that declares raw bytes of a given size. -/
def heededSignedness (a : Attribute) : Option Signedness :=
  match a.disposition, a.size with
  | none, some (.fixed _) => if a.type = rawBytes then a.signedness else none
  | _, _ => none

/-- The attribute without the modifiers that are passed over. -/
def heeded (a : Attribute) : Attribute :=
  { a with sizing := a.heededSizing, signedness := a.heededSignedness }

end Attribute

/-- The type without the modifiers that are passed over. -/
def Descriptor.heeded : Descriptor → Descriptor
  | .struct layout => .struct (layout.map Attribute.heeded)
  | .byte size signedness => .byte size signedness
  | .enum size labels => .enum size labels

/-- The document without the modifiers that are passed over. -/
def Document.heeded (d : Document) : Document where
  types := d.types.map fun (name, descriptor) => (name, descriptor.heeded)
  sorted := List.pairwise_map.2 d.sorted

/-- The modifiers of an attribute are in place, in a structure with the given fields: a sizing goes
with a sibling that sizes items of a declared type, and no number is signed. -/
structure Attribute.Regular (d : Document) (siblings : List String) (a : Attribute) : Prop where
  sizing : a.sizing.isSome → a.disposition = none ∧ a.type ≠ rawBytes ∧ (d.get? a.type).isSome ∧
    ∃ sizeField ∈ siblings, a.size = some (.field sizeField)
  signedness : a.signedness ≠ some .signed

/-! ### They make no difference -/

section Heeded

variable {d : Document} {structures : List Structure} {owner name : String}

theorem Document.get?_heeded : d.heeded.get? name = (d.get? name).map Descriptor.heeded := by
  obtain ⟨types, hd⟩ := d
  show (types.map fun (name, descriptor) => (name, descriptor.heeded)).lookup name =
    (types.lookup name).map Descriptor.heeded
  clear hd
  induction types with
  | nil => rfl
  | cons t rest ih =>
    obtain ⟨n, descriptor⟩ := t
    rw [List.map_cons, List.lookup_cons, List.lookup_cons]
    split
    · rfl
    · exact ih

theorem Document.layout?_heeded :
    d.heeded.layout? name = (d.layout? name).map (List.map Attribute.heeded) := by
  rw [layout?, layout?, get?_heeded]
  rcases d.get? name with _ | (_ | _ | _) <;> rfl

namespace Attribute

variable {a : Attribute}

@[simp] theorem heeded_name : a.heeded.name = a.name := rfl

@[simp] theorem heeded_type : a.heeded.type = a.type := rfl

@[simp] theorem heeded_size : a.heeded.size = a.size := rfl

@[simp] theorem heeded_disposition : a.heeded.disposition = a.disposition := rfl

@[simp] theorem heeded_value : a.heeded.value = a.value := rfl

theorem heeded_sizing (hdisp : a.disposition = none) : a.heeded.sizing = a.sizing := by
  simp [heeded, heededSizing, hdisp]

theorem heeded_signedness {size : UInt64} (hdisp : a.disposition = none) (htype : a.type = rawBytes)
    (hsize : a.size = some (.fixed size)) : a.heeded.signedness = a.signedness := by
  simp [heeded, heededSignedness, hdisp, hsize, htype]

theorem dependency?_heeded : a.heeded.dependency? d.heeded =
    (a.dependency? d).map fun (type, layout) => (type, layout.map heeded) := by
  have hstruct : (d.heeded.layout? a.type).map (a.type, ·) =
      ((d.layout? a.type).map (a.type, ·)).map fun (type, layout) => (type, layout.map heeded) := by
    rw [Document.layout?_heeded, Option.map_map, Option.map_map]
    rfl
  simp only [dependency?, heeded_disposition, heeded_name, heeded_type, hstruct]
  rcases a.disposition with _ | (_ | _)
  · show (if _ then _ else _) = Option.map _ (if _ then _ else _)
    split <;> rfl
  · rfl
  · rfl

theorem declared_heeded :
    a.heeded.declared d.heeded owner = (a.declared d owner).map Descriptor.heeded := by
  simp only [declared, Document.get?_heeded, heeded_name, heeded_type]
  cases d.get? a.type <;> rfl

theorem constantWidth_heeded :
    a.heeded.constantWidth d.heeded owner name = a.constantWidth d owner name := by
  simp only [constantWidth, declared_heeded, heeded_type, heeded_size]
  rcases a.declared d owner with _ | (_ | _ | _) <;> rfl

theorem constant_heeded : a.heeded.constant d.heeded owner = a.constant d owner := by
  simp only [constant, constantWidth_heeded, heeded_value, heeded_type]
  rfl

theorem rawField_heeded (hdisp : a.disposition = none) (htype : a.type = rawBytes) :
    a.heeded.rawField owner name = a.rawField owner name := by
  simp only [rawField, heeded_sizing hdisp, heeded_size, heeded_type]
  rcases hsize : a.size with _ | (size | _)
  · rfl
  · rw [heeded_signedness hdisp htype hsize]
  · cases a.sizing <;> rfl

theorem element_heeded : (a.heeded.declared d.heeded owner >>= a.heeded.element) =
    (a.declared d owner >>= a.element) := by
  rw [declared_heeded]
  rcases a.declared d owner with _ | (_ | _ | _) <;> rfl

theorem typedField_heeded (hdisp : a.disposition = none) :
    a.heeded.typedField d.heeded structures owner name = a.typedField d structures owner name := by
  simp only [typedField, heeded_sizing hdisp, heeded_size]
  rw [← bind_assoc, element_heeded, bind_assoc]

/-- An attribute contributes the same without the modifiers that are passed over. -/
theorem piece_heeded :
    a.heeded.piece d.heeded structures owner = a.piece d structures owner := by
  simp only [piece, heeded_disposition, heeded_type, declared_heeded, constant_heeded]
  rcases hdisp : a.disposition with _ | (_ | _)
  · simp only [typedField_heeded hdisp]
    split
    · next htype =>
      simp only [rawField_heeded hdisp htype]
      rfl
    · rfl
  · cases a.declared d owner <;> rfl
  · rfl

end Attribute

variable {room : Nat} {path : List String}

/-- Neither does a layout, if the visits do not on which it depends. -/
theorem layAttributes_heeded
    {v v' : String → List Attribute → List Structure → Except SchemaError (List Structure)}
    (hv : ∀ type layout xs, v' type (layout.map Attribute.heeded) xs = v type layout xs)
    {layout : List Attribute} {xs : List Structure} :
    layAttributes v' d.heeded owner (layout.map Attribute.heeded) xs =
      layAttributes v d owner layout xs := by
  induction layout generalizing xs with
  | nil => rfl
  | cons a rest ih =>
    have hdependency : layDependency v' d.heeded a.heeded xs = layDependency v d a xs := by
      unfold layDependency
      rw [Attribute.dependency?_heeded]
      cases a.dependency? d with
      | none => rfl
      | some t => exact hv t.1 t.2 xs
    rw [List.map_cons, layAttributes_cons, layAttributes_cons, hdependency]
    simp only [Attribute.piece_heeded, ih]

/-- A visit of a structure is the same without the modifiers that are passed over. -/
theorem visit_heeded {layout : List Attribute} {xs : List Structure} :
    visit d.heeded room path name (layout.map Attribute.heeded) xs =
      visit d room path name layout xs := by
  induction room generalizing path name layout xs with
  | zero => rfl
  | succ room ih =>
    have hlay : layAttributes (visit d.heeded room (name :: path)) d.heeded name
        (layout.map Attribute.heeded) xs =
          layAttributes (visit d room (name :: path)) d name layout xs :=
      layAttributes_heeded fun _ _ _ => ih
    simp only [visit, hlay]

theorem addType_heeded {schema : Schema} {descriptor : Descriptor} :
    Schema.addType d.heeded schema name descriptor.heeded =
      Schema.addType d schema name descriptor := by
  have hroom : d.heeded.types.length = d.types.length := List.length_map ..
  cases descriptor with
  | struct layout => simp only [Schema.addType, Descriptor.heeded, visit_heeded, hroom]
  | byte => rfl
  | enum => rfl

/-- A document is resolved to the same schema, or refused for the same reason, without the modifiers
that are passed over. -/
theorem resolve_heeded : Schema.resolve d.heeded = Schema.resolve d := by
  unfold Schema.resolve
  show (d.types.map fun (name, descriptor) => (name, descriptor.heeded)).foldlM _ _ = _
  rw [List.foldlM_map]
  simp only [addType_heeded]

end Heeded

/-! ### What is left is in place -/

section Resolved

variable {d : Document} {schema : Schema}

/-- What an attribute declares is among the declared fields of its layout. -/
theorem Spliced.mem_of_declares {layout : List Attribute} {fs : List Field} {cs : List Constant}
    (h : Spliced d layout fs cs) {a : Attribute} (ha : a ∈ layout) (hdisp : a.disposition = none)
    {name : String} {kind : FieldKind} (hname : a.name = some name) (hkind : a.Declares d kind) :
    ⟨name, kind⟩ ∈ fs := by
  induction h with
  | nil => cases ha
  | inline hinline _ _ _ _ ih =>
    rcases List.mem_cons.1 ha with rfl | ha
    · cases hdisp.symm.trans hinline
    · exact List.mem_append_right _ (ih ha)
  | const hconst _ _ ih =>
    rcases List.mem_cons.1 ha with rfl | ha
    · cases hdisp.symm.trans hconst
    · exact ih ha
  | field _ hname' hkind' _ ih =>
    rcases List.mem_cons.1 ha with rfl | ha
    · obtain rfl := Option.some.inj (hname.symm.trans hname')
      obtain rfl := hkind.unique hkind'
      exact List.mem_cons_self
    · exact List.mem_cons_of_mem _ (ih ha)

theorem Document.HasItem.isSome_get? {type : String} {item : Element} (h : d.HasItem type item) :
    (d.get? type).isSome := by
  cases h with
  | scalar hget => exact hget ▸ rfl
  | blob hget => exact hget ▸ rfl
  | enum hget => exact hget ▸ rfl
  | struct hget => exact hget ▸ rfl

namespace Attribute

variable {a : Attribute} {kind : FieldKind}

/-- A field that is declared with a sizing is a group that is sized by a sibling. -/
theorem Declares.governor?_of_sizing (h : a.Declares d kind) (hsome : a.sizing.isSome) :
    a.type ≠ rawBytes ∧ (d.get? a.type).isSome ∧
      ∃ sizeField rule, a.size = some (.field sizeField) ∧
        kind.governor? = some (sizeField, rule) := by
  cases h with
  | rawScalar _ hsizing => exact nomatch hsizing ▸ hsome
  | rawBlob _ hsizing => exact nomatch hsizing ▸ hsome
  | sizedBlob _ hsizing => exact nomatch hsizing ▸ hsome
  | single _ _ hsizing => exact nomatch hsizing ▸ hsome
  | fixed _ _ hsizing => exact nomatch hsizing ▸ hsome
  | counted htype hitem _ hsize => exact ⟨htype, hitem.isSome_get?, _, _, hsize, rfl⟩
  | budgeted htype hitem _ hsize => exact ⟨htype, hitem.isSome_get?, _, _, hsize, rfl⟩

/-- No field is declared with a signed number, where this is looked at. -/
theorem Declares.heededSignedness_ne (h : a.Declares d kind) :
    a.heededSignedness ≠ some .signed := by
  unfold heededSignedness
  intro hsigned
  split at hsigned
  · next hsize =>
    split at hsigned
    · next htype =>
      cases h with
      | rawScalar _ _ _ hsignedness => cases hsignedness.symm.trans hsigned
      | rawBlob _ _ _ hsignedness => cases hsignedness.symm.trans hsigned
      | sizedBlob _ _ hsize' => cases hsize.symm.trans hsize'
      | single htype' => exact htype' htype
      | fixed htype' => exact htype' htype
      | counted htype' => exact htype' htype
      | budgeted htype' => exact htype' htype
    · cases hsigned
  · cases hsigned

/-- The modifiers of a valid attribute that are not passed over are in place. -/
theorem Valid.regular_heeded (h : a.Valid d) {layout : List Attribute} {fs : List Field}
    {cs : List Constant} (hspliced : Spliced d layout fs cs) (hsized : Sized fs)
    (ha : a ∈ layout) : a.heeded.Regular d (fs.map (·.name)) := by
  have hplaced : ∀ disposition, a.disposition = some disposition →
      a.heeded.Regular d (fs.map (·.name)) := by
    intro disposition hdisp
    constructor
    · simp [heeded, heededSizing, hdisp]
    · simp [heeded, heededSignedness, hdisp]
  rcases h with ⟨hdisp, -⟩ | ⟨hdisp, -⟩ | ⟨hdisp, hname, hkind⟩
  · exact hplaced _ hdisp
  · exact hplaced _ hdisp
  refine ⟨fun hsome => ?_, hkind.heededSignedness_ne⟩
  rw [heeded_sizing hdisp] at hsome
  obtain ⟨htype, hdeclared, sizeField, rule, hsize, hgovernor⟩ := hkind.governor?_of_sizing hsome
  have hfield := hspliced.mem_of_declares ha hdisp hname hkind
  obtain ⟨c, width, hpair, hcarrier, -⟩ := hsized.carried _ hfield sizeField rule hgovernor
  refine ⟨hdisp, htype, hdeclared, sizeField, List.mem_map.2 ⟨c, ?_, hcarrier⟩, hsize⟩
  exact hpair.subset List.mem_cons_self

end Attribute

/-- No type of a resolved document is signed, and the modifiers of its attributes that are not
passed over are in place. The others are nowhere heeded: without them, the document is resolved to
the same schema. -/
theorem modifiers_of_resolve (h : Schema.resolve d = .ok schema) :
    (∀ type size, d.get? type ≠ some (.byte size (some .signed))) ∧
    (∀ owner layout, d.layout? owner = some layout → ∃ s, schema.structure? owner = some s ∧
      ∀ a ∈ layout, a.heeded.Regular d (s.fields.map (·.name))) ∧
    Schema.resolve d.heeded = .ok schema := by
  have hvalid := valid_of_resolve h
  refine ⟨fun type size hget => ?_, fun owner layout hlayout => ?_, resolve_heeded.trans h⟩
  · rcases hvalid.bytes type size _ hget with hsign | ⟨hsign, -⟩ <;> cases hsign
  · obtain ⟨s, hs⟩ := Option.isSome_iff_exists.1
      (isSome_of_resolve h (Option.isSome_iff_exists.2 ⟨layout, hlayout⟩))
    obtain rfl := name_of_findStructure? hs
    obtain ⟨layout', fs, hlayout', hspliced, hfields⟩ :=
      (built_of_resolve h).splices s (mem_of_findStructure? hs)
    obtain rfl := Option.some.inj (hlayout.symm.trans hlayout')
    refine ⟨s, hs, fun a ha => ?_⟩
    rw [names_of_becomes hfields]
    exact (hvalid.attributes _ layout hlayout a ha).regular_heeded hspliced
      (hvalid.sized _ layout fs _ hlayout hspliced) ha

end Resolved

/-! ### Examples -/

/-- Attributes of a ledger whose modifiers are out of place: the sizing of a structure that is put
inline and that of a constant, and the signedness of a constant, of a named type and of a blob. -/
def strayAttributes : List Attribute := [
  (Attribute.inlined "Header").withSizing .bytes,
  (((Attribute.named "version" "byte").withSize (.fixed 1)).asConstant 1).withSizing .count,
  { ((Attribute.named "revision" "byte").withSize (.fixed 1)).asConstant 2 with
    signedness := some .signed },
  { Attribute.named "total" "Amount" with signedness := some .signed },
  { (Attribute.named "notes" "byte").withSize (.field "length") with signedness := some .signed }]

/-- The attribute of a ledger whose sizing is in place. -/
def entriesAttribute : Attribute :=
  ((Attribute.named "entries" "Amount").withSize (.field "size")).withSizing .bytes

/-- Ledgers. -/
def ledgerDocument : Document :=
  .ofList [
    ("Amount", .byte 8 (some .unsigned)),
    ("Header", .struct [
      ((Attribute.named "length" "byte").withSize (.fixed 1)).asUnsigned,
      ((Attribute.named "size" "byte").withSize (.fixed 2)).asUnsigned]),
    ("Ledger", .struct (strayAttributes ++ [entriesAttribute]))]

/-- The structure of ledgers. -/
def ledgerStructure : Structure where
  name := "Ledger"
  fields := [⟨"length", .derived .one "notes" .byteLength⟩,
    ⟨"size", .derived .two "entries" .groupSize⟩, ⟨"total", .scalar .eight⟩,
    ⟨"notes", .variableBlob "length"⟩, ⟨"entries", .repeated (.scalar .eight) (.budgeted "size")⟩]
  constants := [⟨"version", .one, 1⟩, ⟨"revision", .one, 2⟩]
  fixedSize := none
  minSize := 11

/-- The schema of ledgers. -/
def ledgerSchema : Schema where
  structures := [ledgerStructure,
    { name := "Header", fields := [⟨"length", .scalar .one⟩, ⟨"size", .scalar .two⟩],
      constants := [], fixedSize := some 3, minSize := 3 }]
  enumerations := []

theorem resolve_ledgerDocument : Schema.resolve ledgerDocument = .ok ledgerSchema := by
  decide +kernel

/-- The sizing of the entries is in place, and the ledger is resolved without the stray modifiers as
it is with them. -/
theorem modifiers_of_ledgerDocument :
    Schema.resolve ledgerDocument = .ok ledgerSchema ∧
      (∃ sizeField ∈ ["length", "size", "total", "notes", "entries"],
        entriesAttribute.size = some (.field sizeField)) ∧
      Schema.resolve ledgerDocument.heeded = .ok ledgerSchema ∧
      ledgerDocument.heeded ≠ ledgerDocument := by
  obtain ⟨-, hregular, hheeded⟩ := modifiers_of_resolve resolve_ledgerDocument
  obtain ⟨s, hs, hregular⟩ := hregular "Ledger" (strayAttributes ++ [entriesAttribute])
    (by decide +kernel)
  have hfound : ledgerSchema.structure? "Ledger" = some ledgerStructure := rfl
  obtain rfl := Option.some.inj (hfound.symm.trans hs)
  obtain ⟨-, -, -, hsize⟩ := (hregular entriesAttribute (by simp)).sizing rfl
  exact ⟨resolve_ledgerDocument, hsize, hheeded, by decide +kernel⟩

/-- The document of ledgers is accepted although its modifiers are out of place. -/
theorem stray_modifiers :
    Schema.resolve ledgerDocument = .ok ledgerSchema ∧
      ledgerDocument.layout? "Ledger" = some (strayAttributes ++ [entriesAttribute]) ∧
      ∀ a ∈ strayAttributes, ∀ siblings, ¬a.Regular ledgerDocument siblings := by
  refine ⟨resolve_ledgerDocument, by decide +kernel, ?_⟩
  intro a ha siblings hregular
  simp only [strayAttributes, List.mem_cons, List.not_mem_nil, or_false] at ha
  rcases ha with rfl | rfl | rfl | rfl | rfl
  · exact nomatch (hregular.sizing rfl).1
  · exact nomatch (hregular.sizing rfl).1
  · exact hregular.signedness rfl
  · exact hregular.signedness rfl
  · exact hregular.signedness rfl

end WireSchema
