import WireSchema.Proofs.Resolve.Visit

/-!
# Why a document is refused

Most faults lie in a single declaration: a width that there is not, a name that is missing, a size
field that is not there. Two kinds do not. A cycle is found by the walk through the document, and
whether the items of a group take a byte depends on the structures that are laid out already.

* `FailsPlain`: a computation fails only with faults of a single declaration.
* `Attribute.fault_of_piece`: what may be wrong with an attribute.
* `Attribute.piece_eq_zeroSizedElement_iff`: when a group is refused for its items.
* `fault_of_resolve`: a fault for which a document is refused is plain, or a cycle, or lies in an
  attribute that is laid out after what it depends on.
-/

namespace WireSchema

/-- The fault lies in a single declaration. -/
def SchemaError.IsPlain : SchemaError → Prop
  | cycle _ => False
  | zeroSizedElement .. => False
  | _ => True

/-- The computation fails only with faults that lie in a single declaration. -/
def FailsPlain {α : Type} (x : Except SchemaError α) : Prop := ∀ e, x = .error e → e.IsPlain

section Plain

variable {α β : Type}

theorem FailsPlain.bind {x : Except SchemaError α} {f : α → Except SchemaError β}
    (hx : FailsPlain x) (hf : ∀ a, FailsPlain (f a)) : FailsPlain (x >>= f) := by
  intro e h
  rcases bind_eq_error_iff.1 h with h | ⟨a, -, h⟩
  · exact hx e h
  · exact hf a e h

theorem plain_ok (a : α) : FailsPlain (.ok a) := by
  intro e h
  cases h

theorem plain_error {e : SchemaError} (he : e.IsPlain) :
    FailsPlain (.error e : Except SchemaError α) := by
  rintro e' ⟨⟩
  exact he

theorem plain_forM {f : α → Except SchemaError PUnit} (h : ∀ x, FailsPlain (f x)) (xs : List α) :
    FailsPlain (xs.forM f) := by
  induction xs with
  | nil => exact plain_ok _
  | cons x xs ih => exact (h x).bind fun _ => ih

theorem plain_foldlM {f : β → α → Except SchemaError β} (h : ∀ b x, FailsPlain (f b x))
    (xs : List α) (b : β) : FailsPlain (xs.foldlM f b) := by
  induction xs generalizing b with
  | nil => exact plain_ok b
  | cons x xs ih =>
    rw [List.foldlM_cons]
    exact (h b x).bind ih

end Plain

/-! ### Plain faults -/

theorem plain_scalarWidth (type : String) (size : UInt64) : FailsPlain (scalarWidth type size) := by
  unfold scalarWidth
  split
  · exact plain_ok _
  · exact plain_error trivial

theorem plain_byteRun (type : String) (size : UInt64) (signedness : Option Signedness) :
    FailsPlain (byteRun type size signedness) := by
  unfold byteRun
  split
  · exact plain_error trivial
  · exact (plain_scalarWidth type size).bind fun width => plain_ok _
  · exact plain_ok _

theorem plain_checkValue (type name : String) (width : Width) (value : UInt64) :
    FailsPlain (checkValue type name width value) := by
  unfold checkValue
  split
  · exact plain_ok _
  · exact plain_error trivial

namespace Attribute

variable (d : Document) (owner name : String) (a : Attribute)

theorem plain_requiredName : FailsPlain (a.requiredName owner) := by
  unfold requiredName
  split
  · exact plain_ok _
  · exact plain_error trivial

theorem plain_declared : FailsPlain (a.declared d owner) := by
  unfold declared
  split
  · exact plain_ok _
  · exact plain_error trivial

theorem plain_constantWidth : FailsPlain (a.constantWidth d owner name) := by
  unfold constantWidth
  split
  · split
    · exact plain_scalarWidth _ _
    · exact plain_error trivial
  · refine (plain_declared d owner a).bind fun descriptor => ?_
    split
    · exact plain_scalarWidth _ _
    · exact plain_scalarWidth _ _
    · exact plain_error trivial

theorem plain_constant : FailsPlain (a.constant d owner) := by
  refine (plain_requiredName owner a).bind fun name => ?_
  split
  · exact plain_error trivial
  · refine (plain_constantWidth d owner name a).bind fun width => ?_
    exact (plain_checkValue _ _ _ _).bind fun _ => plain_ok _

theorem plain_rawField : FailsPlain (a.rawField owner name) := by
  unfold rawField
  split
  · exact plain_error trivial
  · exact plain_error trivial
  · exact (plain_byteRun _ _ _).bind fun run => plain_ok _
  · exact plain_ok _

theorem plain_element (descriptor : Descriptor) : FailsPlain (a.element descriptor) := by
  unfold element
  split
  · exact plain_byteRun _ _ _
  · exact (plain_scalarWidth _ _).bind fun width => plain_ok _
  · exact plain_ok _

end Attribute

theorem plain_bindSize (owner : String) (fields : List Field) (b : Binding) :
    FailsPlain (bindSize owner fields b) := by
  have hcarrier : FailsPlain (sizeCarrier owner fields b) := by
    unfold sizeCarrier
    split
    · exact plain_ok _
    · split <;> exact plain_error trivial
  have hwidth : ∀ f, FailsPlain (carrierWidth owner f) := by
    intro f
    unfold carrierWidth
    split
    · exact plain_ok _
    · split
      · exact plain_ok _
      · exact plain_error trivial
    · exact plain_error trivial
    · exact plain_error trivial
  exact hcarrier.bind fun f => (hwidth f).bind fun width => plain_ok _

theorem plain_assemble (structures : List Structure) (name : String) (p : Piece) :
    FailsPlain (assemble structures name p) := by
  have hdistinct : FailsPlain (checkDistinct name p) := by
    unfold checkDistinct
    split
    · exact plain_error trivial
    · exact plain_ok _
  refine hdistinct.bind fun _ => ?_
  exact (plain_foldlM (plain_bindSize name) _ _).bind fun fields => plain_ok _

/-! ### Groups -/

namespace Attribute

variable {d : Document} {below : List Structure} {owner name : String} {a : Attribute}
  {item : Element} {cardinality : Cardinality} {e : SchemaError}

/-- A group is refused for nothing but its items. -/
theorem groupPiece_eq_error_iff {bindings : List Binding} :
    groupPiece below owner name item cardinality bindings = .error e ↔
      item.minSize below = 0 ∧ e = .zeroSizedElement owner name := by
  unfold groupPiece
  split
  · next h => simp [h, eq_comm]
  · next h => simp [h]

theorem typedField_eq_of_declares (htype : a.type ≠ rawBytes)
    (h : a.Declares d (.repeated item cardinality)) :
    ∃ bindings, a.typedField d below owner name =
      groupPiece below owner name item cardinality bindings := by
  have hfield : d.HasItem a.type item → ∃ descriptor, a.declared d owner = .ok descriptor ∧
      a.element descriptor = .ok item := by
    intro hitem
    obtain ⟨descriptor, hget, helement⟩ := element_eq_ok_iff.2 hitem
    exact ⟨descriptor, declared_eq_ok_iff.2 hget, helement⟩
  generalize hk : FieldKind.repeated item cardinality = kind at h
  unfold typedField
  cases h with
  | rawScalar heq => exact absurd heq htype
  | rawBlob heq => exact absurd heq htype
  | sizedBlob heq => exact absurd heq htype
  | @single item' => cases item' <;> cases hk
  | fixed _ hitem hsizing hsize =>
    cases hk
    obtain ⟨descriptor, hdeclared, helement⟩ := hfield hitem
    exact ⟨[], by simp only [hdeclared, helement, hsize, hsizing, bind, Except.bind]⟩
  | @counted _ sizeField _ hitem hsizing hsize =>
    cases hk
    obtain ⟨descriptor, hdeclared, helement⟩ := hfield hitem
    refine ⟨[⟨name, sizeField, .itemCount⟩], ?_⟩
    rcases hs : a.sizing with _ | (_ | _)
    · simp only [hdeclared, helement, hsize, bind, Except.bind]
    · simp only [hdeclared, helement, hsize, bind, Except.bind]
    · exact absurd hs hsizing
  | @budgeted _ sizeField _ hitem hsizing hsize =>
    cases hk
    obtain ⟨descriptor, hdeclared, helement⟩ := hfield hitem
    refine ⟨[⟨name, sizeField, .groupSize⟩], ?_⟩
    simp only [hdeclared, helement, hsize, hsizing, bind, Except.bind]

/-- What may be wrong with a field of a named type is plain, unless it is a group of items that may
be empty. -/
theorem fault_of_typedField (htype : a.type ≠ rawBytes)
    (h : a.typedField d below owner name = .error e) :
    e.IsPlain ∨ ∃ item cardinality, e = .zeroSizedElement owner name ∧
      a.Declares d (.repeated item cardinality) ∧ item.minSize below = 0 := by
  rcases bind_eq_error_iff.1 h with h | ⟨descriptor, hget, h⟩
  · exact .inl (plain_declared d owner a e h)
  rcases bind_eq_error_iff.1 h with h | ⟨item, hitem, h⟩
  · exact .inl (plain_element a descriptor e h)
  have hitem : d.HasItem a.type item :=
    element_eq_ok_iff.1 ⟨descriptor, declared_eq_ok_iff.1 hget, hitem⟩
  split at h
  · cases h
  · cases h
    exact .inl trivial
  · cases h
    exact .inl trivial
  · next count hsize hsizing =>
    obtain ⟨hzero, rfl⟩ := groupPiece_eq_error_iff.1 h
    exact .inr ⟨item, _, rfl, .fixed htype hitem hsizing hsize, hzero⟩
  · next sizeField hsize hsizing =>
    obtain ⟨hzero, rfl⟩ := groupPiece_eq_error_iff.1 h
    exact .inr ⟨item, _, rfl, .budgeted htype hitem hsizing hsize, hzero⟩
  · next sizeField hsize hsizing =>
    obtain ⟨hzero, rfl⟩ := groupPiece_eq_error_iff.1 h
    exact .inr ⟨item, _, rfl, .counted htype hitem hsizing hsize, hzero⟩

/-- What may be wrong with an attribute is plain, unless it is a group of items that may be
empty. -/
theorem fault_of_piece (h : a.piece d below owner = .error e) :
    e.IsPlain ∨ ∃ name item cardinality, e = .zeroSizedElement owner name ∧
      a.disposition = none ∧ a.name = some name ∧ a.Declares d (.repeated item cardinality) ∧
        item.minSize below = 0 := by
  unfold piece at h
  split at h
  · refine .inl ((plain_declared d owner a).bind (fun descriptor => ?_) e h)
    split
    · exact plain_ok _
    · exact plain_error trivial
  · exact .inl ((plain_constant d owner a).bind (fun c => plain_ok _) e h)
  · next hdisp =>
    rcases bind_eq_error_iff.1 h with h | ⟨name, hname, h⟩
    · exact .inl (plain_requiredName owner a e h)
    split at h
    · exact .inl (plain_rawField owner name a e h)
    · next htype =>
      rcases fault_of_typedField htype h with hplain | ⟨item, cardinality, he, hkind, hzero⟩
      · exact .inl hplain
      · have hname := requiredName_eq_ok_iff.1 hname
        exact .inr ⟨name, item, cardinality, he, hdisp, hname, hkind, hzero⟩

theorem Declares.type_ne (h : a.Declares d (.repeated item cardinality)) : a.type ≠ rawBytes := by
  generalize hk : FieldKind.repeated item cardinality = kind at h
  cases h <;> first | assumption | cases hk

/-- A group is refused for its items exactly if these take no byte at their shortest. -/
theorem piece_eq_zeroSizedElement_iff (hdisp : a.disposition = none) (hname : a.name = some name)
    (hkind : a.Declares d (.repeated item cardinality)) :
    a.piece d below owner = .error (.zeroSizedElement owner name) ↔ item.minSize below = 0 := by
  have htype := hkind.type_ne
  obtain ⟨bindings, hfield⟩ : ∃ bindings, a.typedField d below owner name =
      groupPiece below owner name item cardinality bindings := typedField_eq_of_declares htype hkind
  have hpiece : a.piece d below owner = groupPiece below owner name item cardinality bindings := by
    simp only [piece, hdisp, requiredName, hname, bind, Except.bind, if_neg htype, hfield]
  rw [hpiece, groupPiece_eq_error_iff]
  exact and_iff_left rfl

end Attribute

/-! ### Where faults arise -/

section Origin

variable {d : Document} {e : SchemaError}

/-- The fault lies in an attribute that is laid out after the structure that it depends on. -/
def Document.FaultAt (d : Document) (e : SchemaError) : Prop :=
  ∃ owner layout a below, d.layout? owner = some layout ∧ a ∈ layout ∧ Built d below ∧
    (∀ t, a.dependency? d = some t → (findStructure? below t.1).isSome) ∧
      a.piece d below owner = .error e

/-- A fault is plain, or a cycle, or lies in an attribute. -/
def Document.Explains (d : Document) (e : SchemaError) : Prop :=
  e.IsPlain ∨ (∃ path, e = .cycle path) ∨ d.FaultAt e

/-- Faults that are found while attributes are laid out are explained if those of visits are. -/
theorem explains_of_layAttributes {path : List String}
    {visit : String → List Attribute → List Structure → Except SchemaError (List Structure)}
    (hv : Visits d path visit)
    (hvisit : ∀ name layout xs, d.layout? name = some layout → Built d xs →
      visit name layout xs = .error e → d.Explains e)
    {owner : String} {whole layout : List Attribute} (hwhole : d.layout? owner = some whole)
    (hsub : layout ⊆ whole) {xs : List Structure} (hb : Built d xs)
    (h : layAttributes visit d owner layout xs = .error e) : d.Explains e := by
  induction layout generalizing xs with
  | nil => cases h
  | cons a rest ih =>
    obtain ⟨ha, hrest⟩ := List.cons_subset.1 hsub
    rw [layAttributes_cons] at h
    rcases bind_eq_error_iff.1 h with h | ⟨ys, hys, h⟩
    · unfold layDependency at h
      split at h
      · next type inner hdep =>
        exact hvisit type inner xs (Attribute.layout?_of_dependency? hdep) hb h
      · cases h
    obtain ⟨hext, hdep⟩ := layDependency_extends hv hb hys
    rcases bind_eq_error_iff.1 h with h | ⟨first, -, h⟩
    · exact .inr (.inr ⟨owner, whole, a, ys, hwhole, ha, hext.built, hdep, h⟩)
    rcases bind_eq_error_iff.1 h with h | ⟨others, -, h⟩
    · exact ih hrest hext.built h
    · cases h

/-- The faults that a visit finds are explained. -/
theorem explains_of_visit {room : Nat} {path : List String} {name : String}
    {layout : List Attribute} {xs : List Structure} (hlayout : d.layout? name = some layout)
    (hb : Built d xs) (h : visit d room path name layout xs = .error e) : d.Explains e := by
  induction room generalizing path name layout xs with
  | zero =>
    unfold visit at h
    split at h
    · cases h
    split at h <;> exact .inr (.inl ⟨_, (Except.error.inj h).symm⟩)
  | succ room ih =>
    unfold visit at h
    split at h
    · cases h
    split at h
    · exact .inr (.inl ⟨_, (Except.error.inj h).symm⟩)
    rcases bind_eq_error_iff.1 h with h | ⟨⟨below, p⟩, -, h⟩
    · exact explains_of_layAttributes (visit_extends d room (name :: path))
        (fun type inner ys hinner hys hvisit => ih hinner hys hvisit) hlayout
        (List.Subset.refl _) hb h
    · exact .inl ((plain_assemble below name p).bind (fun s => plain_ok _) e h)

/-- A fault for which a document is refused is plain, or a cycle, or lies in an attribute that is
laid out after what it depends on. -/
theorem fault_of_resolve (h : Schema.resolve d = .error e) : d.Explains e := by
  obtain ⟨⟨name, descriptor⟩, hmem, schema, hb, h⟩ :=
    exists_of_foldlM_eq_error (P := fun schema => Built d schema.structures)
      (fun x hx old new hb hadd => (addType_extends (d.get?_of_mem hx) hb hadd).built) h .nil
  have hget := d.get?_of_mem hmem
  cases descriptor with
  | struct layout =>
    rcases bind_eq_error_iff.1 h with h | ⟨structures, -, h⟩
    · exact explains_of_visit (Document.layout?_eq_some_iff.2 hget) hb h
    · cases h
  | enum size labels =>
    refine .inl ((plain_scalarWidth name size).bind (fun width => ?_) e h)
    exact (plain_forM (fun label => plain_checkValue _ _ _ _) labels).bind fun _ => plain_ok _
  | byte size signedness =>
    exact .inl ((plain_byteRun name size signedness).bind (fun _ => plain_ok _) e h)

end Origin

end WireSchema
