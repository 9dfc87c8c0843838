import WireSchema.Proofs.Resolve.Replacement

/-!
# A structure in place, or as a field

An attribute either puts the fields of a structure in its place or declares a field of that
structure. `Extracted` relates what the two lay out: the fields around the attribute are the same,
sizes included, and between them stand the fields of the inner structure here and the field that
holds it there.

* `Extracted`: how the two structures are related.
* `foldlM_bindSize_around`: no binding reaches into the inner structure, as the field that holds it
  cannot hold a size.
* `exists_extracted`: the structures that two accepted documents lay out are so related.
-/

namespace WireSchema

theorem FieldKind.Carries.unique {kind : FieldKind} {v w : Width} (hv : kind.Carries v)
    (hw : kind.Carries w) : v = w := by
  rcases hv with rfl | rfl
  · rcases hw with hw | hw <;> cases hw
    rfl
  · rcases hw with hw | hw
    · cases hw
    · exact Width.eq_of_bytes_eq (FieldKind.fixedBlob.inj hw)

/-! ### Bindings around the inner structure -/

section Around

variable {owner : String} {front inner back flat deep : List Field} {e : Field}

/-- A binding that is settled among the outer fields is settled there whatever stands between
them. -/
theorem bindSize_around {b : Binding} (he : ∀ w, ¬e.kind.Carries w)
    (hn : ((front ++ inner ++ back).map (·.name)).Nodup)
    (hn' : ((front ++ e :: back).map (·.name)).Nodup)
    (h : bindSize owner (front ++ inner ++ back) b = .ok flat)
    (h' : bindSize owner (front ++ e :: back) b = .ok deep) :
    ∃ settle : Field → Field, (∀ f, (settle f).name = f.name) ∧
      flat = front.map settle ++ inner ++ back.map settle ∧
      deep = front.map settle ++ e :: back.map settle := by
  obtain ⟨carrier, width, hfind, hk, rfl⟩ := bindSize_eq_ok_iff.1 h
  obtain ⟨carrier', width', hfind', hk', rfl⟩ := bindSize_eq_ok_iff.1 h'
  have hs : carrier.name = b.sizeField := by simpa using List.find?_some hfind
  have hs' : carrier'.name = b.sizeField := by simpa using List.find?_some hfind'
  have hmem : carrier ∈ front ++ inner ++ back :=
    List.takeWhile_subset _ (List.mem_of_find?_eq_some hfind)
  have hmem' : carrier' ∈ front ++ e :: back :=
    List.takeWhile_subset _ (List.mem_of_find?_eq_some hfind')
  -- the carrier is not the field between, so it is an outer field, and the same on both sides
  have houter : carrier' ∈ front ∨ carrier' ∈ back := by
    rcases List.mem_append.1 hmem' with hm | hm
    · exact .inl hm
    · rcases List.mem_cons.1 hm with rfl | hm
      · exact absurd hk' (he width')
      · exact .inr hm
  have hboth : carrier' ∈ front ++ inner ++ back := by
    rcases houter with hm | hm <;> simp [hm]
  obtain rfl : carrier = carrier' := List.inj_on_of_nodup_map hn hmem hboth (hs.trans hs'.symm)
  obtain rfl := hk.unique hk'
  have hnot : carrier ∉ inner := by
    intro hm
    have hnd := List.nodup_append.1 (hn.of_map _)
    rcases houter with ho | ho
    · exact (List.nodup_append.1 hnd.1).2.2 _ ho _ hm rfl
    · exact hnd.2.2 _ (List.mem_append_right _ hm) _ ho rfl
  have hinner : inner.map (b.settle width) = inner := by
    refine (List.map_congr_left fun f hf => ?_).trans inner.map_id
    exact settle_eq_self_of_ne hn hboth hs (by simp [hf]) (ne_of_mem_of_not_mem hf hnot)
  have hbetween : b.settle width e = e := by
    refine settle_eq_self hn' hmem' hs (by simp) fun heq => he width ?_
    rw [heq]
    exact hk
  refine ⟨b.settle width, b.settle_name width, ?_, ?_⟩
  · rw [List.map_append, List.map_append, hinner]
  · rw [List.map_append, List.map_cons, hbetween]

/-- Binding all sizes turns the outer fields into the same on both sides, and leaves what stands
between them as it is. -/
theorem foldlM_bindSize_around {bs : List Binding} (he : ∀ w, ¬e.kind.Carries w)
    (hn : ((front ++ inner ++ back).map (·.name)).Nodup)
    (hn' : ((front ++ e :: back).map (·.name)).Nodup)
    (h : bs.foldlM (bindSize owner) (front ++ inner ++ back) = .ok flat)
    (h' : bs.foldlM (bindSize owner) (front ++ e :: back) = .ok deep) :
    ∃ front' back', flat = front' ++ inner ++ back' ∧ deep = front' ++ e :: back' := by
  induction bs generalizing front back with
  | nil =>
    cases h
    cases h'
    exact ⟨front, back, rfl, rfl⟩
  | cons b bs ih =>
    rw [List.foldlM_cons] at h h'
    obtain ⟨flat₁, h₁, h⟩ := bind_eq_ok_iff.1 h
    obtain ⟨deep₁, h₁', h'⟩ := bind_eq_ok_iff.1 h'
    obtain ⟨settle, hname, rfl, rfl⟩ := bindSize_around he hn hn' h₁ h₁'
    have hnames : ∀ fs : List Field, (fs.map settle).map (·.name) = fs.map (·.name) := by
      intro fs
      simp [hname]
    refine ih ?_ ?_ h h'
    · simpa only [List.map_append, hnames] using hn
    · simpa only [List.map_append, List.map_cons, hnames] using hn'

end Around

/-! ### What the two layouts come to -/

/-- The structure `flat` has the fields of `inner` in the place where `deep` has a field `name` of
that type, and both refer to structures of the same list. -/
structure Extracted (below : List Structure) (name : String) (front back : List Field)
    (inner flat deep : Structure) : Prop where
  flat_eq : flat.fields = front ++ inner.fields ++ back
  deep_eq : deep.fields = front ++ ⟨name, .embedded inner.name⟩ :: back
  layered : Layered below
  found : findStructure? below inner.name = some inner
  flat_sound : flat.Sound below
  deep_sound : deep.Sound below

/-- Under a name and nothing else, a structure is declared as a field that holds it. -/
theorem Attribute.Declares.of_named {d : Document} {name type : String} {kind : FieldKind}
    (h : (Attribute.named name type).Declares d kind) (htype : (d.layout? type).isSome) :
    kind = .embedded type := by
  obtain ⟨layout, hlayout⟩ := Option.isSome_iff_exists.1 htype
  have hget := Document.layout?_eq_some_iff.1 hlayout
  cases h with
  | single _ hitem =>
    rw [hitem.unique (.struct hget)]
    rfl
  | rawScalar _ _ hsize => cases hsize
  | rawBlob _ _ hsize => cases hsize
  | sizedBlob _ _ hsize => cases hsize
  | fixed _ _ _ hsize => cases hsize
  | counted _ _ _ hsize => cases hsize
  | budgeted _ _ _ hsize => cases hsize

section Documents

variable {d : Document} {schema schema' : Schema} {owner name : String}
  {pre post : List Attribute} {a : Attribute}

/-- The attributes around the one that differs contribute the same. -/
theorem exists_pieces_around {d' : Document} {below ys : List Structure} {p p' : Piece}
    (ha : a.disposition = some .inline) (halike : LaidAlike d d' below ys)
    (hbelow : Built d below) (hready : Ready d below (pre ++ a :: post))
    (h : pieces d below owner (pre ++ a :: post) = .ok p)
    (h' : pieces d' ys owner (pre ++ .named name a.type :: post) = .ok p') :
    ∃ q r inner, findStructure? below a.type = some inner ∧
      p = q ++ ({ fields := inner.fields, constants := inner.constants } ++ r) ∧
      p' = q ++ (Attribute.fieldPiece ⟨name, .embedded a.type⟩ ++ r) := by
  obtain ⟨q, _, hq, hrest, rfl⟩ := pieces_append_eq_ok_iff.1 h
  obtain ⟨q', _, hq', hrest', rfl⟩ := pieces_append_eq_ok_iff.1 h'
  obtain ⟨first, hfirst, hrest⟩ := bind_eq_ok_iff.1 hrest
  obtain ⟨r, hr, hrest⟩ := bind_eq_ok_iff.1 hrest
  obtain ⟨first', hfirst', hrest'⟩ := bind_eq_ok_iff.1 hrest'
  obtain ⟨r', hr', hrest'⟩ := bind_eq_ok_iff.1 hrest'
  cases hrest
  cases hrest'
  have hpre := halike.pieces (fun b hb => hready b (List.mem_append_left _ hb)) hq
  have hpost := halike.pieces
    (fun b hb => hready b (List.mem_append_right _ (List.mem_cons_of_mem _ hb))) hr
  obtain rfl := Except.ok.inj (hpre.symm.trans hq')
  obtain rfl := Except.ok.inj (hpost.symm.trans hr')
  obtain ⟨-, inner, hinner, rfl⟩ := (Attribute.piece_inline_iff ha).1 hfirst
  obtain ⟨_, kind, ⟨⟩, hkind, -, rfl⟩ := (Attribute.piece_field_iff rfl).1 hfirst'
  have hstruct : (d'.layout? a.type).isSome := by
    have hdeclared := hbelow.isSome_layout? (mem_of_findStructure? hinner)
    rw [name_of_findStructure? hinner] at hdeclared
    rwa [Document.layout?, halike.layouts _ inner hinner]
  obtain rfl := hkind.of_named hstruct
  exact ⟨q, r, inner, hinner, rfl, rfl⟩

/-- What is assembled from such contributions has the same fields around those of the inner
structure and around the field that holds it: no binding is that of either. -/
theorem exists_fields_around {below below' : List Structure} {q r : Piece}
    {inner flat deep : Structure} {type : String}
    (h : assemble below owner
      (q ++ ({ fields := inner.fields, constants := inner.constants } ++ r)) = .ok flat)
    (h' : assemble below' owner (q ++ (Attribute.fieldPiece ⟨name, .embedded type⟩ ++ r)) =
      .ok deep) :
    ∃ front back, flat.fields = front ++ inner.fields ++ back ∧
      deep.fields = front ++ ⟨name, .embedded type⟩ :: back := by
  obtain ⟨hn, -, fields, hfields, rfl⟩ := assemble_eq_ok_iff.1 h
  obtain ⟨hn', -, fields', hfields', rfl⟩ := assemble_eq_ok_iff.1 h'
  rw [Piece.fields_append, Piece.fields_append, ← List.append_assoc] at hn hfields
  rw [Piece.fields_append, Piece.fields_append] at hn' hfields'
  exact foldlM_bindSize_around (by simp [FieldKind.Carries]) hn hn' hfields hfields'

/-- Where a document and the one with the inline attribute `a` turned into a field are both
accepted, the structures that they lay out differ in that field. -/
theorem exists_extracted (hlayout : d.layout? owner = some (pre ++ a :: post))
    (ha : a.disposition = some .inline) (h : Schema.resolve d = .ok schema)
    (h' : Schema.resolve (d.insert owner (.struct (pre ++ .named name a.type :: post))) =
      .ok schema') :
    ∃ below front back inner flat deep, Extracted below name front back inner flat deep ∧
      inner.name = a.type ∧ schema.structure? owner = some flat ∧
      schema'.structure? owner = some deep ∧
      ∀ type s, findStructure? below type = some s →
        schema.structure? type = some s ∧ schema'.structure? type = some s := by
  obtain ⟨above, below, flat, p, hstructures, rfl, hbelow, hready, hp, hflat⟩ :=
    exists_laid_of_resolve h hlayout
  have hl := layered_of_resolve h
  rw [hstructures] at hl
  have halike := laidAlike_insert hlayout hbelow hl.find_below_eq_none h'
  obtain ⟨below', deep, p', hdeep, hp', hassemble⟩ := exists_assembled_of_resolve h'
    (Document.layout?_eq_some_iff.2 (by rw [Document.get?_insert, if_pos rfl]))
  obtain ⟨q, r, inner, hinner, rfl, rfl⟩ :=
    exists_pieces_around ha halike hbelow hready hp hp'
  obtain ⟨front, back, hflat_eq, hdeep_eq⟩ := exists_fields_around hflat hassemble
  have hflat_sound := (sound_assemble (sound_pieces hbelow.layered hready hp) hflat).2
  have hdeep_sound : deep.Sound below := by
    have hsound := (layered_of_resolve h').sound (mem_of_findStructure? hdeep)
    refine hsound.shrunk halike.grown fun f hf type ht => ?_
    rw [hdeep_eq] at hf
    rcases List.mem_append.1 hf with hf | hf
    · exact hflat_sound.references f (by simp [hflat_eq, hf]) type ht
    rcases List.mem_cons.1 hf with rfl | hf
    · rw [List.mem_singleton.1 ht, hinner]
      rfl
    · exact hflat_sound.references f (by simp [hflat_eq, hf]) type ht
  obtain hname := name_of_findStructure? hinner
  rw [← hname] at hdeep_eq hinner
  refine ⟨below, front, back, inner, flat, deep,
    ⟨hflat_eq, hdeep_eq, hbelow.layered, hinner, hflat_sound, hdeep_sound⟩, hname, ?_, hdeep, ?_⟩
  · rw [Schema.structure?, hstructures]
    exact hl.find_of_mem (by simp)
  · intro type s hs
    refine ⟨?_, halike.grown type s hs⟩
    rw [Schema.structure?, hstructures]
    exact hl.find_above hs

end Documents

end WireSchema
