import WireSchema.Proofs.Resolve.Declaration

/-!
# What resolution builds

Resolution walks through the structures of a document depth first and lays out each of them once.
`Built` describes the outcome without the walk: each structure is assembled from the attributes of
its own layout, all of which refer to structures below it.

* `Attribute.sound_piece`: what an attribute contributes is sound.
* `sound_assemble`: a structure that is assembled from a sound part of a layout is sound.
* `Built.layered`: what is built from a document is layered.
-/

namespace WireSchema

/-! ### The contributions of attributes -/

/-- What a part of a layout promises, given the structures that are laid out already. -/
structure Piece.Sound (below : List Structure) (p : Piece) : Prop where
  references : ∀ f ∈ p.fields, ∀ type ∈ f.kind.references, (findStructure? below type).isSome
  wired : Wired p.bindings p.fields
  nonempty : ∀ f ∈ p.fields, ∀ item cardinality, f.kind = .repeated item cardinality →
    0 < item.minSize below
  fits : ∀ c ∈ p.constants, c.value.toNat ≤ c.width.maxValue

namespace Piece.Sound

variable {below : List Structure} {p q : Piece}

theorem empty : ({} : Piece).Sound below := ⟨by simp, .nil, by simp, by simp⟩

theorem append (hp : p.Sound below) (hq : q.Sound below) : (p ++ q).Sound below where
  references f hf := by
    rcases List.mem_append.1 hf with hf | hf
    · exact hp.references f hf
    · exact hq.references f hf
  wired := hp.wired.append hq.wired
  nonempty f hf := by
    rcases List.mem_append.1 hf with hf | hf
    · exact hp.nonempty f hf
    · exact hq.nonempty f hf
  fits c hc := by
    rcases List.mem_append.1 hc with hc | hc
    · exact hp.fits c hc
    · exact hq.fits c hc

/-- A content field of its own waits for its binding. -/
theorem field {f : Field} (hc : f.isContent)
    (href : ∀ type ∈ f.kind.references, (findStructure? below type).isSome)
    (hpos : Attribute.NonemptyItems below f.kind) : (Attribute.fieldPiece f).Sound below where
  references g hg := by
    rw [List.mem_singleton.1 hg]
    exact href
  wired := .single hc
  nonempty g hg := by
    rw [List.mem_singleton.1 hg]
    exact hpos
  fits := by simp [Attribute.fieldPiece]

theorem constant {c : Constant} (hc : c.value.toNat ≤ c.width.maxValue) :
    ({ constants := [c] } : Piece).Sound below where
  references := by simp
  wired := .nil
  nonempty := by simp
  fits := by simpa using hc

/-- A structure that is put inline brings its size fields along. -/
theorem ofStructure {s : Structure} (hs : s.Sound below) :
    ({ fields := s.fields, constants := s.constants } : Piece).Sound below :=
  ⟨hs.references, hs.wired, hs.nonempty, hs.fits⟩

end Piece.Sound

/-- What an attribute contributes is sound once the structure that it depends on is laid out. -/
theorem Attribute.sound_piece {d : Document} {below : List Structure} {owner : String}
    {a : Attribute} {p : Piece} (hl : Layered below)
    (hdep : ∀ t, a.dependency? d = some t → (findStructure? below t.1).isSome)
    (h : a.piece d below owner = .ok p) : p.Sound below := by
  rcases hdisp : a.disposition with _ | (_ | _)
  · obtain ⟨name, kind, hname, hkind, hpos, rfl⟩ := (piece_field_iff hdisp).1 h
    refine .field (hkind.isContent name) (fun type ht => ?_) hpos
    obtain ⟨inner, hinner⟩ := hkind.dependency?_of_reference hdisp hname ht
    exact hdep _ hinner
  · obtain ⟨-, s, hs, rfl⟩ := (piece_inline_iff hdisp).1 h
    exact .ofStructure (hl.sound (mem_of_findStructure? hs))
  · obtain ⟨c, hc, rfl⟩ := (piece_const_iff hdisp).1 h
    exact .constant hc.fits

/-- What some attributes contribute one after the other, given the structures that they may refer
to. -/
def pieces (d : Document) (below : List Structure) (owner : String) :
    List Attribute → Except SchemaError Piece
  | [] => .ok {}
  | a :: rest => do
    let first ← a.piece d below owner
    let others ← pieces d below owner rest
    return first ++ others

theorem Piece.append_assoc (p q r : Piece) : p ++ q ++ r = p ++ (q ++ r) := by
  show Piece.mk _ _ _ = Piece.mk _ _ _
  simp

theorem pieces_append_eq_ok_iff {d : Document} {below : List Structure} {owner : String}
    {pre post : List Attribute} {p : Piece} :
    pieces d below owner (pre ++ post) = .ok p ↔
      ∃ q r, pieces d below owner pre = .ok q ∧ pieces d below owner post = .ok r ∧ p = q ++ r := by
  induction pre generalizing p with
  | nil =>
    constructor
    · intro h
      exact ⟨{}, p, rfl, h, rfl⟩
    · rintro ⟨q, r, hq, hr, rfl⟩
      cases hq
      exact hr
  | cons a rest ih =>
    constructor
    · intro h
      obtain ⟨first, hfirst, h⟩ := bind_eq_ok_iff.1 h
      obtain ⟨others, hothers, h⟩ := bind_eq_ok_iff.1 h
      cases h
      obtain ⟨q, r, hq, hr, rfl⟩ := ih.1 hothers
      refine ⟨first ++ q, r, ?_, hr, (Piece.append_assoc first q r).symm⟩
      exact bind_eq_ok_iff.2 ⟨first, hfirst, bind_eq_ok_iff.2 ⟨q, hq, rfl⟩⟩
    · rintro ⟨q, r, hq, hr, rfl⟩
      obtain ⟨first, hfirst, hq⟩ := bind_eq_ok_iff.1 hq
      obtain ⟨others, hothers, hq⟩ := bind_eq_ok_iff.1 hq
      cases hq
      have hrest := ih.2 ⟨others, r, hothers, hr, rfl⟩
      refine bind_eq_ok_iff.2 ⟨first, hfirst, bind_eq_ok_iff.2 ⟨others ++ r, hrest, ?_⟩⟩
      exact congrArg Except.ok (Piece.append_assoc first others r).symm

theorem exists_piece_of_pieces {d : Document} {below : List Structure} {owner : String}
    {layout : List Attribute} {p : Piece} (h : pieces d below owner layout = .ok p) {a : Attribute}
    (ha : a ∈ layout) : ∃ q, a.piece d below owner = .ok q := by
  induction layout generalizing p with
  | nil => cases ha
  | cons b rest ih =>
    obtain ⟨first, h₁, h⟩ := bind_eq_ok_iff.1 h
    obtain ⟨others, h₂, -⟩ := bind_eq_ok_iff.1 h
    rcases List.mem_cons.1 ha with rfl | ha
    · exact ⟨first, h₁⟩
    · exact ih h₂ ha

/-- Whether all structures that some attributes depend on are laid out. -/
def Ready (d : Document) (below : List Structure) (layout : List Attribute) : Prop :=
  ∀ a ∈ layout, ∀ t, a.dependency? d = some t → (findStructure? below t.1).isSome

theorem sound_pieces {d : Document} {below : List Structure} {owner : String}
    {layout : List Attribute} {p : Piece} (hl : Layered below) (hr : Ready d below layout)
    (h : pieces d below owner layout = .ok p) : p.Sound below := by
  induction layout generalizing p with
  | nil =>
    cases h
    exact .empty
  | cons a rest ih =>
    obtain ⟨first, h₁, h⟩ := bind_eq_ok_iff.1 h
    obtain ⟨others, h₂, h⟩ := bind_eq_ok_iff.1 h
    cases h
    exact (Attribute.sound_piece hl (hr a List.mem_cons_self) h₁).append
      (ih (fun b hb => hr b (List.mem_cons_of_mem _ hb)) h₂)

/-! ### Contributions for another document -/

/-- Another document has the same types that are no structures, and what is laid out here has the
same layout there and is laid out the same. -/
structure LaidAlike (d d' : Document) (xs ys : List Structure) : Prop where
  scalars : ∀ type, d.layout? type = none → d'.get? type = d.get? type
  layouts : ∀ type s, findStructure? xs type = some s → d'.get? type = d.get? type
  grown : ∀ type s, findStructure? xs type = some s → findStructure? ys type = some s

/-- When more structures are laid out for a document, those that were stay as they are. -/
theorem LaidAlike.of_grown {d : Document} {xs ys : List Structure}
    (h : ∀ type s, findStructure? xs type = some s → findStructure? ys type = some s) :
    LaidAlike d d xs ys :=
  ⟨fun _ _ => rfl, fun _ _ _ => rfl, h⟩

section LaidAlike

variable {d d' : Document} {xs ys : List Structure} {owner : String}

/-- An attribute contributes the same for two documents if what it depends on is laid out. -/
theorem LaidAlike.piece (h : LaidAlike d d' xs ys) {a : Attribute} {p : Piece}
    (hdep : ∀ t, a.dependency? d = some t → (findStructure? xs t.1).isSome)
    (hp : a.piece d xs owner = .ok p) : a.piece d' ys owner = .ok p := by
  rcases hdisp : a.disposition with _ | (_ | _)
  · obtain ⟨name, kind, hname, hkind, hpos, rfl⟩ := (Attribute.piece_field_iff hdisp).1 hp
    have hget : a.type ≠ rawBytes → d'.get? a.type = d.get? a.type := by
      intro htype
      cases hlayout : d.layout? a.type with
      | none => exact h.scalars _ hlayout
      | some inner =>
        obtain ⟨s, hs⟩ := Option.isSome_iff_exists.1
          (hdep _ (Attribute.dependency?_of_struct hdisp hname htype hlayout))
        exact h.layouts _ s hs
    refine (Attribute.piece_field_iff hdisp).2 ⟨name, kind, hname, hkind.of_get hget, ?_, rfl⟩
    rintro item cardinality rfl
    -- items that are structures are laid out, and so they are for the other document
    have hmin : item.minSize ys = item.minSize xs := by
      refine Element.minSize_congr fun t ht => ?_
      subst ht
      obtain ⟨inner, hinner⟩ :=
        hkind.dependency?_of_reference hdisp hname (List.mem_singleton.2 rfl)
      obtain ⟨s, hs⟩ := Option.isSome_iff_exists.1 (hdep _ hinner)
      rw [hs, h.grown _ s hs]
    rw [hmin]
    exact hpos item cardinality rfl
  · obtain ⟨hdeclared, s, hs, rfl⟩ := (Attribute.piece_inline_iff hdisp).1 hp
    have hget := h.layouts _ s hs
    exact (Attribute.piece_inline_iff hdisp).2 ⟨hget ▸ hdeclared, s, h.grown _ s hs, rfl⟩
  · obtain ⟨c, hc, rfl⟩ := (Attribute.piece_const_iff hdisp).1 hp
    exact (Attribute.piece_const_iff hdisp).2
      ⟨c, ⟨hc.name, hc.value, hc.width.of_get (h.scalars _), hc.fits⟩, rfl⟩

theorem LaidAlike.pieces (h : LaidAlike d d' xs ys) {layout : List Attribute} {p : Piece}
    (hready : Ready d xs layout) (hp : pieces d xs owner layout = .ok p) :
    pieces d' ys owner layout = .ok p := by
  induction layout generalizing p with
  | nil => exact hp
  | cons a rest ih =>
    obtain ⟨first, hfirst, hp⟩ := bind_eq_ok_iff.1 hp
    obtain ⟨others, hothers, hp⟩ := bind_eq_ok_iff.1 hp
    have hfirst' := h.piece (hready a List.mem_cons_self) hfirst
    have hothers' := ih (fun b hb => hready b (List.mem_cons_of_mem _ hb)) hothers
    exact bind_eq_ok_iff.2 ⟨first, hfirst', bind_eq_ok_iff.2 ⟨others, hothers', hp⟩⟩

end LaidAlike

theorem checkDistinct_eq_ok_iff {owner : String} {p : Piece} :
    checkDistinct owner p = .ok () ↔
      (p.fields.map (·.name)).Nodup ∧ ∀ f ∈ p.fields, f.name ∉ p.constants.map (·.name) := by
  rw [← firstTaken?_eq_none_iff]
  unfold checkDistinct
  split
  · next h => simp [h]
  · next h => simp [h]

/-- What it takes to assemble a structure, and what comes of it. -/
theorem assemble_eq_ok_iff {below : List Structure} {name : String} {p : Piece} {s : Structure} :
    assemble below name p = .ok s ↔
      (p.fields.map (·.name)).Nodup ∧ (∀ f ∈ p.fields, f.name ∉ p.constants.map (·.name)) ∧
        ∃ fields, p.bindings.foldlM (bindSize name) p.fields = .ok fields ∧
          s = ⟨name, fields, p.constants, fixedSizeOf below fields, minSizeOf below fields⟩ := by
  simp only [assemble, bind_eq_ok_iff, pure_eq_ok_iff]
  constructor
  · rintro ⟨_, hdistinct, fields, hfields, rfl⟩
    obtain ⟨hnames, hconstants⟩ := checkDistinct_eq_ok_iff.1 hdistinct
    exact ⟨hnames, hconstants, fields, hfields, rfl⟩
  · rintro ⟨hnames, hconstants, fields, hfields, rfl⟩
    exact ⟨(), checkDistinct_eq_ok_iff.2 ⟨hnames, hconstants⟩, fields, hfields, rfl⟩

/-- A structure that is assembled from a sound part of a layout is sound. -/
theorem sound_assemble {below : List Structure} {name : String} {p : Piece} {s : Structure}
    (hp : p.Sound below) (h : assemble below name p = .ok s) : s.name = name ∧ s.Sound below := by
  obtain ⟨hnames, hconstants, fields, hf, rfl⟩ := assemble_eq_ok_iff.1 h
  -- what binding makes of a field is a field of the same name, which is the same or derived
  obtain ⟨hwired, hsame, hmem⟩ := wired_of_foldlM hf hp.wired hnames
  refine ⟨rfl, ⟨?_, ?_, ?_, hwired, ?_, hp.fits, rfl, rfl⟩⟩
  · intro f hf type ht
    rcases hmem f hf with hf | ⟨_, _, _, hk⟩
    · exact hp.references f hf type ht
    · simp [hk, FieldKind.references] at ht
  · rw [hsame]
    exact hnames
  · intro f hf hc
    have : f.name ∈ fields.map (·.name) := List.mem_map_of_mem hf
    rw [hsame] at this
    obtain ⟨g, hg, hname⟩ := List.mem_map.1 this
    exact hconstants g hg (hname ▸ hc)
  · intro f hf item cardinality hk
    rcases hmem f hf with hf | ⟨_, _, _, hk'⟩
    · exact hp.nonempty f hf item cardinality hk
    · rw [hk'] at hk
      cases hk

/-! ### Structures built from a document -/

/-- Structures, each of which is assembled from the layout that the document gives it, on top of
those that it depends on. -/
inductive Built (d : Document) : List Structure → Prop
  | nil : Built d []
  | cons {s : Structure} {below : List Structure} {layout : List Attribute} {p : Piece} :
    findStructure? below s.name = none → d.layout? s.name = some layout → Ready d below layout →
    pieces d below s.name layout = .ok p → assemble below s.name p = .ok s →
    Built d below → Built d (s :: below)

theorem Built.layered {d : Document} {structures : List Structure} (h : Built d structures) :
    Layered structures := by
  induction h with
  | nil => exact .nil
  | cons hnew _ hready hp hs _ ih =>
    exact .cons hnew (sound_assemble (sound_pieces ih hready hp) hs).2 ih

/-- Every structure is assembled from its layout, on top of those below it. -/
theorem Built.exists_below {d : Document} {structures : List Structure} (h : Built d structures)
    {s : Structure} (hs : s ∈ structures) :
    ∃ above below layout p, structures = above ++ s :: below ∧ Built d below ∧
      d.layout? s.name = some layout ∧ Ready d below layout ∧
      pieces d below s.name layout = .ok p ∧ assemble below s.name p = .ok s := by
  induction h with
  | nil => cases hs
  | @cons t below layout p _ hlayout hready hp ht hbelow ih =>
    rcases List.mem_cons.1 hs with rfl | hs
    · exact ⟨[], below, layout, p, rfl, hbelow, hlayout, hready, hp, ht⟩
    · obtain ⟨above, below', layout', p', rfl, hrest⟩ := ih hs
      exact ⟨t :: above, below', layout', p', rfl, hrest⟩

/-- What is built is declared. -/
theorem Built.isSome_layout? {d : Document} {structures : List Structure} (h : Built d structures)
    {s : Structure} (hs : s ∈ structures) : (d.layout? s.name).isSome := by
  obtain ⟨-, -, layout, -, -, -, hlayout, -⟩ := h.exists_below hs
  exact Option.isSome_iff_exists.2 ⟨layout, hlayout⟩

end WireSchema
