import WireSchema.Proofs.Resolve.Closure
import WireSchema.Proofs.Resolve.Flattening
import WireSchema.Proofs.Resolve.Validity

/-!
# Parts of a document

A part of a document consists of some of its types, and with each structure of the declared types
that its attributes name. What a structure comes to is settled in the part: it is laid out the same
there, in the whole, and in every other document that has the part.

* `Document.PartOf`: one document is part of another.
* `Document.PartOf.built`: what is built from the part is built from the whole.
* `Document.PartOf.valid`: a part of a valid document is valid.
* `resolve_of_partOf`: layouts do not depend on what surrounds them.
-/

namespace WireSchema

/-- The document has a structure with the given attribute. -/
def Document.HasAttribute (d : Document) (a : Attribute) : Prop :=
  ∃ name layout, d.layout? name = some layout ∧ a ∈ layout

/-- The types of the first document are among those of the second, and a declared type that an
attribute of the first names is one of its own. -/
structure Document.PartOf (d d' : Document) : Prop where
  types : d.types ⊆ d'.types
  closed : ∀ a, d.HasAttribute a → (d'.get? a.type).isSome → (d.get? a.type).isSome

/-- Documents that agree on the types that some attributes name, and that those name in turn which
the attributes put inline, splice a layout of such attributes alike. -/
theorem Spliced.of_get {d d' : Document} {P : Attribute → Prop}
    (hget : ∀ a, P a → d'.get? a.type = d.get? a.type)
    (hinner : ∀ a, P a → ∀ inner, d.layout? a.type = some inner → ∀ b ∈ inner, P b)
    {layout : List Attribute} {fs : List Field} {cs : List Constant} (h : Spliced d layout fs cs)
    (hlayout : ∀ a ∈ layout, P a) : Spliced d' layout fs cs := by
  induction h with
  | nil => exact .nil
  | @inline a rest inner fs gs cs ks hdisp hin _ _ ihinner ihrest =>
    obtain ⟨ha, hrest⟩ := List.forall_mem_cons.1 hlayout
    have hin' : d'.layout? a.type = some inner := by
      rw [Document.layout?_eq_some_iff] at hin ⊢
      rw [hget a ha, hin]
    exact .inline hdisp hin' (ihinner (hinner a ha inner hin)) (ihrest hrest)
  | @const a rest gs c ks hdisp hc _ ih =>
    obtain ⟨ha, hrest⟩ := List.forall_mem_cons.1 hlayout
    exact .const hdisp ⟨hc.name, hc.value, hc.width.of_get fun _ => hget a ha, hc.fits⟩ (ih hrest)
  | @field a rest name kind gs ks hdisp hname hkind _ ih =>
    obtain ⟨ha, hrest⟩ := List.forall_mem_cons.1 hlayout
    exact .field hdisp hname (hkind.of_get fun _ => hget a ha) (ih hrest)

/-- The structures that declared fields refer to are declared. -/
theorem Spliced.isSome_layout? {d : Document} {layout : List Attribute} {fs : List Field}
    {cs : List Constant} (h : Spliced d layout fs cs) {f : Field} (hf : f ∈ fs) {type : String}
    (ht : type ∈ f.kind.references) : (d.layout? type).isSome := by
  induction h with
  | nil => cases hf
  | inline _ _ _ _ ihinner ihrest =>
    rcases List.mem_append.1 hf with hf | hf
    · exact ihinner hf
    · exact ihrest hf
  | const _ _ _ ih => exact ih hf
  | field hdisp hname hkind _ ih =>
    rcases List.mem_cons.1 hf with rfl | hf
    · obtain ⟨inner, hinner⟩ := hkind.dependency?_of_reference hdisp hname ht
      rw [Attribute.layout?_of_dependency? hinner]
      rfl
    · exact ih hf

namespace Document.PartOf

variable {d d' : Document} (h : d.PartOf d')
include h

theorem get?_of_get? {name : String} {descriptor : Descriptor}
    (hget : d.get? name = some descriptor) : d'.get? name = some descriptor :=
  get?_of_mem (h.types (mem_of_get? hget))

theorem layout?_of_layout? {name : String} {layout : List Attribute}
    (hlayout : d.layout? name = some layout) : d'.layout? name = some layout :=
  layout?_eq_some_iff.2 (h.get?_of_get? (layout?_eq_some_iff.1 hlayout))

/-- The part and the whole agree on what the attributes of the part name. -/
theorem get?_eq {a : Attribute} (ha : d.HasAttribute a) : d'.get? a.type = d.get? a.type := by
  cases hget : d.get? a.type with
  | some descriptor => exact h.get?_of_get? hget
  | none =>
    rw [← Option.not_isSome_iff_eq_none]
    intro hsome
    have hpart := h.closed a ha hsome
    rw [hget] at hpart
    cases hpart

theorem layout?_eq {a : Attribute} (ha : d.HasAttribute a) :
    d'.layout? a.type = d.layout? a.type := by
  rw [layout?, layout?, h.get?_eq ha]

theorem dependency?_eq {a : Attribute} (ha : d.HasAttribute a) :
    a.dependency? d' = a.dependency? d := by
  rw [Attribute.dependency?, Attribute.dependency?, h.layout?_eq ha]

theorem dependsOn {owner type : String} (hdep : d.DependsOn owner type) :
    d'.DependsOn owner type := by
  obtain ⟨layout, hlayout, a, ha, htype, hsome, hdisp⟩ := hdep
  obtain ⟨inner, hinner⟩ := Option.isSome_iff_exists.1 hsome
  refine ⟨layout, h.layout?_of_layout? hlayout, a, ha, htype, ?_, hdisp⟩
  rw [h.layout?_of_layout? hinner]
  rfl

/-! ### What is built from a part -/

theorem pieces_eq {below : List Structure} {owner : String} {layout : List Attribute}
    (hlayout : ∀ a ∈ layout, d.HasAttribute a) :
    pieces d' below owner layout = pieces d below owner layout := by
  induction layout with
  | nil => rfl
  | cons a rest ih =>
    obtain ⟨ha, hrest⟩ := List.forall_mem_cons.1 hlayout
    have hpiece : a.piece d' below owner = a.piece d below owner :=
      Attribute.piece_congr (h.get?_eq ha) (fun _ _ => rfl) fun _ => rfl
    rw [pieces, pieces, hpiece, ih hrest]

/-- What is built from the part is built from the whole. -/
theorem built {structures : List Structure} (hb : Built d structures) : Built d' structures := by
  induction hb with
  | nil => exact .nil
  | @cons s below layout p hnew hlayout hready hp hs _ ih =>
    have hall : ∀ a ∈ layout, d.HasAttribute a := fun a ha => ⟨s.name, layout, hlayout, ha⟩
    refine .cons hnew (h.layout?_of_layout? hlayout) (fun a ha t ht => ?_) ?_ hs ih
    · exact hready a ha t (h.dependency?_eq (hall a ha) ▸ ht)
    · rw [h.pieces_eq hall, hp]

/-! ### Parts of valid documents -/

/-- A layout of the part is spliced alike in the part and in the whole. -/
theorem spliced_iff {name : String} {layout : List Attribute} {fs : List Field}
    {cs : List Constant} (hlayout : d.layout? name = some layout) :
    Spliced d' layout fs cs ↔ Spliced d layout fs cs := by
  have hall : ∀ a ∈ layout, d.HasAttribute a := fun a ha => ⟨name, layout, hlayout, ha⟩
  constructor
  · intro hspliced
    refine hspliced.of_get (fun a ha => (h.get?_eq ha).symm) (fun a ha inner hinner b hb => ?_) hall
    exact ⟨a.type, inner, h.layout?_eq ha ▸ hinner, hb⟩
  · intro hspliced
    refine hspliced.of_get (fun a ha => h.get?_eq ha) (fun a ha inner hinner b hb => ?_) hall
    exact ⟨a.type, inner, hinner, hb⟩

/-- Where all values of a field of the part take a byte in the whole, they do in the part. -/
theorem occupies {kind : FieldKind} (ho : d'.Occupies kind)
    (hreferences : ∀ type ∈ kind.references, (d.layout? type).isSome) : d.Occupies kind := by
  induction ho with
  | scalar => exact .scalar
  | fixedBlob hpos => exact .fixedBlob hpos
  | @embedded type layout fs cs f hlayout hspliced hf _ ih =>
    obtain ⟨layout', hlayout'⟩ := Option.isSome_iff_exists.1
      (hreferences type (List.mem_singleton_self type))
    obtain rfl := Option.some.inj (hlayout.symm.trans (h.layout?_of_layout? hlayout'))
    have hspliced' := (h.spliced_iff hlayout').1 hspliced
    exact .embedded hlayout' hspliced' hf (ih fun type ht => hspliced'.isSome_layout? hf ht)
  | @repeated item count hcount _ ih =>
    rw [← item.references_single] at hreferences
    exact .repeated hcount (ih hreferences)

/-- A part of a valid document is valid. -/
theorem valid (hv : d'.Valid) : d.Valid := by
  constructor
  case bytes =>
    exact fun name size signedness hget => hv.bytes name size signedness (h.get?_of_get? hget)
  case enums => exact fun name size labels hget => hv.enums name size labels (h.get?_of_get? hget)
  case acyclic =>
    exact fun name hcycle => hv.acyclic name (hcycle.lift id fun _ _ => h.dependsOn)
  case attributes =>
    intro name layout hlayout a ha
    have hattribute : d.HasAttribute a := ⟨name, layout, hlayout, ha⟩
    have hget := (h.get?_eq hattribute).symm
    rcases hv.attributes name layout (h.layout?_of_layout? hlayout) a ha with
      ⟨hdisp, hsome⟩ | ⟨hdisp, hc⟩ | ⟨hdisp, hname, hkind⟩
    · exact .inline hdisp (h.layout?_eq hattribute ▸ hsome)
    · exact .const hdisp ⟨hc.name, hc.value, hc.width.of_get fun _ => hget, hc.fits⟩
    · exact .field hdisp hname (hkind.of_get fun _ => hget)
  case distinct =>
    intro name layout fs cs hlayout hspliced
    exact hv.distinct name layout fs cs (h.layout?_of_layout? hlayout)
      ((h.spliced_iff hlayout).2 hspliced)
  case sized =>
    intro name layout fs cs hlayout hspliced
    exact hv.sized name layout fs cs (h.layout?_of_layout? hlayout)
      ((h.spliced_iff hlayout).2 hspliced)
  case occupied =>
    intro name layout hlayout a ha hdisp item cardinality hkind
    have hattribute : d.HasAttribute a := ⟨name, layout, hlayout, ha⟩
    have hkind' : a.Declares d' (.repeated item cardinality) :=
      hkind.of_get fun _ => h.get?_eq hattribute
    refine h.occupies (hv.occupied name layout (h.layout?_of_layout? hlayout) a ha hdisp item
      cardinality hkind') fun type ht => ?_
    rw [item.references_single cardinality] at ht
    cases hv.attributes name layout (h.layout?_of_layout? hlayout) a ha with
    | inline hdisp' => cases hdisp.symm.trans hdisp'
    | const hdisp' => cases hdisp.symm.trans hdisp'
    | field _ hname =>
      obtain ⟨inner, hinner⟩ := hkind.dependency?_of_reference hdisp hname ht
      rw [Attribute.layout?_of_dependency? hinner]
      rfl

end Document.PartOf

/-- Layouts do not depend on what surrounds them. A part of a document that is resolved is resolved,
and gives each of its structures the layout that the whole gives it, which is the one that is laid
out without memory. So do all other documents that have the part. -/
theorem resolve_of_partOf {d d' : Document} (h : d.PartOf d') {whole : Schema}
    (hwhole : Schema.resolve d' = .ok whole) :
    ∃ part, Schema.resolve d = .ok part ∧
      ∀ name, (d.layout? name).isSome →
        ∃ s, part.structure? name = some s ∧ whole.structure? name = some s ∧
          (∀ depth, d.types.length ≤ depth →
            d.flatten depth name = .ok s ∧ d'.flatten depth name = .ok s) ∧
          ∀ other schema, d.PartOf other → Schema.resolve other = .ok schema →
            schema.structure? name = some s := by
  obtain ⟨part, hpart⟩ := (h.valid (valid_of_resolve hwhole)).exists_resolve
  have hb := built_of_resolve hpart
  refine ⟨part, hpart, fun name hname => ?_⟩
  obtain ⟨s, hs⟩ := Option.isSome_iff_exists.1 (isSome_of_resolve hpart hname)
  -- the part is laid out the same in every document that has it
  have hcontext : ∀ other schema, d.PartOf other → Schema.resolve other = .ok schema →
      schema.structure? name = some s := by
    intro other schema hother hschema
    obtain ⟨layout, hlayout⟩ := Option.isSome_iff_exists.1 hname
    have hdeclared : (other.layout? name).isSome :=
      Option.isSome_iff_exists.2 ⟨layout, hother.layout?_of_layout? hlayout⟩
    obtain ⟨t, ht⟩ := Option.isSome_iff_exists.1 (isSome_of_resolve hschema hdeclared)
    rw [ht, (built_of_resolve hschema).eq_of_find (hother.built hb) ht hs]
  refine ⟨s, hs, hcontext d' whole h hwhole, fun depth hdepth => ?_, hcontext⟩
  have hlayer : layer part.structures name ≤ depth :=
    Nat.le_trans (layer_le _ _) (Nat.le_trans hb.length_le hdepth)
  exact ⟨hb.flatten hs hlayer, (h.built hb).flatten hs hlayer⟩

/-! ### An example -/

/-- Chunks of words, without the packets that are made of them. -/
def chunkDocument : Document :=
  .ofList [
    ("word", .byte 2 (some .unsigned)),
    ("Chunk", .struct [
      .named "count" "word",
      (Attribute.named "words" "word").withSize (.field "count")])]

/-- Chunks next to types that are named before and after them. -/
def crowdedDocument : Document :=
  (chunkDocument.insert "Zone" (.struct [.named "first" "Chunk"])).insert "Area"
    (.struct [.inlined "Zone", .named "second" "Chunk"])

/-- The attributes of chunks name nothing but words. -/
theorem chunkDocument_partOf {d : Document} (htypes : chunkDocument.types ⊆ d.types) :
    chunkDocument.PartOf d := by
  have hwords : ∀ p ∈ chunkDocument.types, ∀ a ∈ (chunkDocument.layout? p.1).getD [],
      (chunkDocument.get? a.type).isSome := by
    decide +kernel
  refine ⟨htypes, ?_⟩
  rintro a ⟨name, layout, hlayout, ha⟩ -
  refine hwords _ (Document.mem_of_get? (Document.layout?_eq_some_iff.1 hlayout)) a ?_
  rw [hlayout]
  exact ha

/-- A chunk is laid out among packets as it is alone, and as it is next to other types. -/
theorem resolve_chunks :
    ∃ part s, Schema.resolve chunkDocument = .ok part ∧ part.structure? "Chunk" = some s ∧
      packetSchema.structure? "Chunk" = some s ∧ chunkDocument.flatten 2 "Chunk" = .ok s ∧
      ∃ schema, Schema.resolve crowdedDocument = .ok schema ∧
        schema.structure? "Chunk" = some s := by
  obtain ⟨part, hpart, hall⟩ :=
    resolve_of_partOf (chunkDocument_partOf (by decide +kernel)) resolve_packetDocument
  obtain ⟨s, hs, hwhole, hflatten, hother⟩ := hall "Chunk" (by decide +kernel)
  obtain ⟨schema, hschema⟩ : ∃ schema, Schema.resolve crowdedDocument = .ok schema := by
    have hok : (Schema.resolve crowdedDocument).toOption.isSome := by decide +kernel
    cases hresolve : Schema.resolve crowdedDocument with
    | ok schema => exact ⟨schema, rfl⟩
    | error e => rw [hresolve] at hok; cases hok
  exact ⟨part, s, hpart, hs, hwhole, (hflatten 2 (by decide +kernel)).1, schema, hschema,
    hother _ _ (chunkDocument_partOf (by decide +kernel)) hschema⟩

end WireSchema
