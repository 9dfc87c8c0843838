import WireSchema.Proofs.Resolve.Visit
import Mathlib.Data.List.Perm.Subperm

/-!
# Layouts without memory

Resolution lays out each structure once and looks it up from then on. `Document.flatten` keeps
nothing: it lays out a structure from the layout that the document gives it, and whatever the
structure refers to is laid out anew wherever it is needed, for its fields or for its size. It
knows of no list of structures, no order in which types are taken and no path.

* `Attribute.piece_congr`, `assemble_congr`: what is looked up in a list of structures is no more
  than what attributes and fields name.
* `Built.flatten`: every structure that is built is the one that is laid out without memory.
* `Built.eq_of_find`: so structures that are built from one document in different orders are the
  same.
-/

namespace WireSchema

/-- What an attribute contributes, where `lay` lays out the structure that it depends on. -/
def Attribute.contribution (d : Document) (lay : String → Except SchemaError Structure)
    (owner : String) (a : Attribute) : Except SchemaError Piece := do
  let inner ← (a.dependency? d).toList.mapM fun (type, _) => lay type
  a.piece d inner owner

/-- The structure of the given layout, where `lay` lays out whatever it refers to. -/
def Document.layOut (d : Document) (lay : String → Except SchemaError Structure) (name : String)
    (layout : List Attribute) : Except SchemaError Structure := do
  let contributions ← layout.mapM (·.contribution d lay name)
  let whole : Piece := contributions.foldr (· ++ ·) {}
  -- an inline structure brings along fields that refer to others, whose sizes count
  let parts ← (whole.fields.flatMap (·.kind.references)).mapM lay
  assemble parts name whole

/-- The structure `name`, laid out from its descriptor alone. The depth bounds how deep structures
nest; what nests deeper is refused. -/
def Document.flatten (d : Document) : (depth : Nat) → String → Except SchemaError Structure
  | 0, name => .error (.cycle [name])
  | depth + 1, name =>
    match d.layout? name with
    | none => .error (.notStructure name)
    | some layout => d.layOut (d.flatten depth) name layout

/-! ### What is looked up -/

section Congr

variable {d d' : Document} {xs ys : List Structure} {owner : String} {a : Attribute}

/-- An item that is a structure is one of the type of the attribute. -/
theorem Attribute.eq_type_of_element {descriptor : Descriptor} {type : String}
    (h : a.element descriptor = .ok (.struct type)) :
    type = a.type ∧ ∃ layout, descriptor = .struct layout := by
  cases descriptor with
  | byte size signedness =>
    rcases byteRun_eq_ok_iff.1 h with ⟨-, width, -, hitem⟩ | ⟨-, hitem⟩ <;> cases hitem
  | enum size labels =>
    obtain ⟨width, -, h⟩ := bind_eq_ok_iff.1 h
    cases h
  | struct layout =>
    cases h
    exact ⟨rfl, layout, rfl⟩

theorem Attribute.typedField_congr (hget : d'.get? a.type = d.get? a.type)
    (hfind : ∀ layout, d.layout? a.type = some layout →
      findStructure? ys a.type = findStructure? xs a.type) (name : String) :
    a.typedField d' ys owner name = a.typedField d xs owner name := by
  have hdeclared : a.declared d' owner = a.declared d owner := by rw [declared, declared, hget]
  unfold typedField
  rw [hdeclared]
  cases hdescriptor : a.declared d owner with
  | error e => rfl
  | ok descriptor =>
    cases hitem : a.element descriptor with
    | error e => simp only [bind, Except.bind, hitem]
    | ok item =>
      have hmin : item.minSize ys = item.minSize xs := by
        refine Element.minSize_congr fun type ht => ?_
        subst ht
        obtain ⟨rfl, layout, rfl⟩ := eq_type_of_element hitem
        exact hfind layout (Document.layout?_eq_some_iff.2 (declared_eq_ok_iff.1 hdescriptor))
      simp only [bind, Except.bind, hitem, groupPiece, hmin]

/-- What an attribute contributes depends on the descriptor of its type and on the structure that
it depends on. -/
theorem Attribute.piece_congr (hget : d'.get? a.type = d.get? a.type)
    (hfind : ∀ t, a.dependency? d = some t → findStructure? ys t.1 = findStructure? xs t.1)
    (hinline : a.disposition = some .inline →
      findStructure? ys a.type = findStructure? xs a.type) :
    a.piece d' ys owner = a.piece d xs owner := by
  have hdeclared : a.declared d' owner = a.declared d owner := by rw [declared, declared, hget]
  rcases hdisp : a.disposition with _ | (_ | _)
  · simp only [piece, hdisp]
    cases hname : a.name with
    | none => simp only [requiredName, hname, bind, Except.bind]
    | some name =>
      by_cases htype : a.type = rawBytes
      · simp only [if_pos htype]
      · have hfield : a.typedField d' ys owner = a.typedField d xs owner :=
          funext <| typedField_congr hget fun layout hlayout =>
            hfind _ (dependency?_of_struct hdisp hname htype hlayout)
        simp only [if_neg htype, hfield]
  · simp only [piece, hdisp, hdeclared, hinline hdisp]
  · simp only [piece, hdisp, constant, constantWidth, hdeclared]

/-- The size of what is assembled depends on the structures that the fields refer to. -/
theorem assemble_congr {p : Piece} {name : String} {s : Structure} (hp : p.Sound xs)
    (hfind : ∀ f ∈ p.fields, ∀ type ∈ f.kind.references,
      findStructure? ys type = findStructure? xs type)
    (h : assemble xs name p = .ok s) : assemble ys name p = .ok s := by
  obtain ⟨hnames, hconstants, fields, hfields, rfl⟩ := assemble_eq_ok_iff.1 h
  refine assemble_eq_ok_iff.2 ⟨hnames, hconstants, fields, hfields, ?_⟩
  obtain ⟨-, -, hmem⟩ := wired_of_foldlM hfields hp.wired hnames
  have hfind' : ∀ f ∈ fields, ∀ type ∈ f.kind.references,
      findStructure? ys type = findStructure? xs type := by
    intro f hf type ht
    rcases hmem f hf with hf | ⟨_, _, _, hk⟩
    · exact hfind f hf type ht
    · simp [hk, FieldKind.references] at ht
  have hfixed : ∀ f ∈ fields, f.kind.fixedSize? ys = f.kind.fixedSize? xs := fun f hf =>
    FieldKind.fixedSize?_congr (hfind' f hf)
  have hmin : ∀ f ∈ fields, f.kind.minSize ys = f.kind.minSize xs := fun f hf =>
    FieldKind.minSize_congr (hfind' f hf)
  rw [fixedSizeOf, fixedSizeOf, mapM_congr hfixed, minSizeOf, minSizeOf, List.map_congr_left hmin]

end Congr

/-! ### What is built is laid out without memory -/

/-- The contributions of some attributes are put one after the other. -/
theorem pieces_eq_ok_iff {d : Document} {below : List Structure} {owner : String}
    {layout : List Attribute} {p : Piece} :
    pieces d below owner layout = .ok p ↔
      ∃ contributions, layout.mapM (·.piece d below owner) = .ok contributions ∧
        p = contributions.foldr (· ++ ·) {} := by
  induction layout generalizing p with
  | nil =>
    constructor
    · intro h
      cases h
      exact ⟨[], rfl, rfl⟩
    · rintro ⟨contributions, h, rfl⟩
      cases h
      rfl
  | cons a rest ih =>
    simp only [pieces, List.mapM_cons, bind_eq_ok_iff, pure_eq_ok_iff, ih]
    constructor
    · rintro ⟨first, hfirst, _, ⟨others, hothers, rfl⟩, rfl⟩
      exact ⟨_, ⟨first, hfirst, others, hothers, rfl⟩, rfl⟩
    · rintro ⟨_, ⟨first, hfirst, others, hothers, rfl⟩, rfl⟩
      exact ⟨first, hfirst, _, ⟨others, hothers, rfl⟩, rfl⟩

section Built

variable {d : Document} {structures below : List Structure}
  {lay : String → Except SchemaError Structure}

/-- Where structures are laid out one by one as they are found in a list, they are found again in
the list of them. -/
theorem exists_mapM_lay (hlay : ∀ type t, findStructure? below type = some t → lay type = .ok t)
    {types : List String} (htypes : ∀ type ∈ types, (findStructure? below type).isSome) :
    ∃ found, types.mapM lay = .ok found ∧
      ∀ type ∈ types, findStructure? found type = findStructure? below type := by
  induction types with
  | nil => exact ⟨[], rfl, by simp⟩
  | cons first types ih =>
    obtain ⟨s, hs⟩ := Option.isSome_iff_exists.1 (htypes first List.mem_cons_self)
    obtain ⟨found, hfound, hagree⟩ := ih fun type ht => htypes type (List.mem_cons_of_mem _ ht)
    refine ⟨s :: found, ?_, fun type ht => ?_⟩
    · rw [List.mapM_cons, hlay first s hs, hfound]
      rfl
    rw [findStructure?_cons, name_of_findStructure? hs]
    by_cases heq : first = type
    · rw [if_pos heq, ← heq, hs]
    · rw [if_neg heq]
      exact hagree type (List.mem_of_ne_of_mem (Ne.symm heq) ht)

variable (hb : Built d below)
  (hlay : ∀ type t, findStructure? below type = some t → lay type = .ok t)
include hb hlay

/-- An attribute contributes the same where the structure that it depends on is laid out anew. -/
theorem Built.contribution {owner : String} {a : Attribute} {p : Piece}
    (hdep : ∀ t, a.dependency? d = some t → (findStructure? below t.1).isSome)
    (hp : a.piece d below owner = .ok p) : a.contribution d lay owner = .ok p := by
  have hinline : a.disposition = some .inline → (a.dependency? d).isSome := by
    intro hdisp
    obtain ⟨-, s, hs, -⟩ := (Attribute.piece_inline_iff hdisp).1 hp
    have hlayout := hb.isSome_layout? (mem_of_findStructure? hs)
    rw [name_of_findStructure? hs] at hlayout
    simpa [Attribute.dependency?, hdisp] using hlayout
  unfold Attribute.contribution
  cases hdependency : a.dependency? d with
  | none =>
    have hpiece : a.piece d [] owner = a.piece d below owner := by
      refine Attribute.piece_congr rfl (fun t ht => ?_) fun hdisp => ?_
      · cases hdependency.symm.trans ht
      · have hsome := hinline hdisp
        rw [hdependency] at hsome
        cases hsome
    exact hpiece.trans hp
  | some t =>
    obtain ⟨s, hs⟩ := Option.isSome_iff_exists.1 (hdep t hdependency)
    have hfind : findStructure? [s] t.1 = findStructure? below t.1 := by
      rw [findStructure?_cons, if_pos (name_of_findStructure? hs), hs]
    have hpiece : a.piece d [s] owner = a.piece d below owner := by
      refine Attribute.piece_congr rfl (fun u hu => ?_) fun hdisp => ?_
      · cases hdependency.symm.trans hu
        exact hfind
      · rw [← Attribute.fst_of_dependency? hdependency, hfind]
    have hinner : [t].mapM (fun u => lay u.1) = .ok [s] := by
      rw [List.mapM_cons, hlay t.1 s hs]
      rfl
    exact bind_eq_ok_iff.2 ⟨[s], hinner, hpiece.trans hp⟩

/-- A layout comes to the same structure where whatever it refers to is laid out anew. -/
theorem Built.layOut {name : String} {layout : List Attribute} {p : Piece} {s : Structure}
    (hready : Ready d below layout) (hp : pieces d below name layout = .ok p)
    (hs : assemble below name p = .ok s) : d.layOut lay name layout = .ok s := by
  obtain ⟨contributions, hcontributions, rfl⟩ := pieces_eq_ok_iff.1 hp
  have hsound := sound_pieces hb.layered hready hp
  have hreferences : ∀ type ∈ (contributions.foldr (· ++ ·) {} : Piece).fields.flatMap
      (·.kind.references), (findStructure? below type).isSome := by
    intro type ht
    obtain ⟨f, hf, ht⟩ := List.mem_flatMap.1 ht
    exact hsound.references f hf type ht
  obtain ⟨parts, hparts, hfind⟩ := exists_mapM_lay hlay hreferences
  have hanew : layout.mapM (·.contribution d lay name) = .ok contributions := by
    rw [← hcontributions]
    refine mapM_congr fun a ha => ?_
    obtain ⟨q, hq⟩ := exists_piece_of_pieces hp ha
    rw [hq, hb.contribution hlay (hready a ha) hq]
  refine bind_eq_ok_iff.2 ⟨contributions, hanew, bind_eq_ok_iff.2 ⟨parts, hparts, ?_⟩⟩
  exact assemble_congr hsound
    (fun f hf type ht => hfind type (List.mem_flatMap.2 ⟨f, hf, ht⟩)) hs

end Built

/-- What is built is laid out the same without memory, at any depth from its layer on. -/
theorem Built.flatten {d : Document} {structures : List Structure} (h : Built d structures)
    {name : String} {s : Structure} (hs : findStructure? structures name = some s) {depth : Nat}
    (hdepth : layer structures name ≤ depth) : d.flatten depth name = .ok s := by
  induction depth generalizing name s with
  | zero =>
    have hpos := layer_pos (Option.isSome_iff_exists.2 ⟨s, hs⟩)
    omega
  | succ depth ih =>
    have hl := h.layered
    obtain rfl := name_of_findStructure? hs
    obtain ⟨above, below, layout, p, rfl, hbelow, hlayout, hready, hp, hassemble⟩ :=
      h.exists_below (mem_of_findStructure? hs)
    rw [Document.flatten, hlayout]
    refine hbelow.layOut (fun type t ht => ih (hl.find_above ht) ?_) hready hp hassemble
    -- what stands below lies in a deeper layer
    have hdeeper := hl.layer_lt (Option.isSome_iff_exists.2 ⟨t, ht⟩)
    omega

/-- Structures that are built from one document, in whatever order, are the same. -/
theorem Built.eq_of_find {d : Document} {xs ys : List Structure} (hx : Built d xs)
    (hy : Built d ys) {name : String} {s t : Structure} (hs : findStructure? xs name = some s)
    (ht : findStructure? ys name = some t) : s = t := by
  have hfirst := hx.flatten hs (Nat.le_max_left _ (layer ys name))
  have hsecond := hy.flatten ht (Nat.le_max_right (layer xs name) _)
  exact Except.ok.inj (hfirst.symm.trans hsecond)

/-- No more structures are built than there are types. -/
theorem Built.length_le {d : Document} {structures : List Structure} (h : Built d structures) :
    structures.length ≤ d.types.length := by
  have hdistinct : (structures.map (·.name)).Nodup := by
    have hl := h.layered
    clear h
    induction hl with
    | nil => exact .nil
    | @cons s below hnew _ _ ih =>
      refine List.nodup_cons.2 ⟨fun hmem => ?_, ih⟩
      obtain ⟨t, ht, hname⟩ := List.mem_map.1 hmem
      simpa [hname] using List.find?_eq_none.1 hnew t ht
  have hsubset : structures.map (·.name) ⊆ d.types.map Prod.fst := by
    intro name hname
    obtain ⟨s, hs, rfl⟩ := List.mem_map.1 hname
    obtain ⟨layout, hlayout⟩ := Option.isSome_iff_exists.1 (h.isSome_layout? hs)
    exact List.mem_map_of_mem (Document.mem_of_get? (Document.layout?_eq_some_iff.1 hlayout))
  have hlength := (List.subperm_of_subset hdistinct hsubset).length_le
  rwa [List.length_map, List.length_map] at hlength

end WireSchema
