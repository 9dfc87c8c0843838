import WireSchema.Proofs.Resolve.Built

/-!
# Declared fields in a structure

When a structure is assembled, its fields are those that its layout declares, except that some have
been turned into sizes.

* `Field.Becomes`: what a declared field may become.
* `spliced_of_pieces`: the contributions to a layout are what it declares.
* `Built.splices`: so are the fields of the structures that are built.
-/

namespace WireSchema

/-- What becomes of a declared field when sizes are bound: it stays as it is, or takes up a size. -/
def Field.Becomes (f g : Field) : Prop :=
  g = f ∨ ∃ width content rule, f.kind.Carries width ∧ g = ⟨f.name, .derived width content rule⟩

namespace Field.Becomes

variable {f g h : Field}

theorem refl (f : Field) : f.Becomes f := .inl rfl

theorem trans (hfg : f.Becomes g) (hgh : g.Becomes h) : f.Becomes h := by
  rcases hgh with rfl | ⟨width, content, rule, hk, rfl⟩
  · exact hfg
  rcases hfg with rfl | ⟨_, _, _, _, rfl⟩
  · exact .inr ⟨width, content, rule, hk, rfl⟩
  · exact absurd rfl hk.not_derived

theorem name_eq (hfg : f.Becomes g) : g.name = f.name := by
  rcases hfg with rfl | ⟨_, _, _, _, rfl⟩ <;> rfl

/-- A field that is sized by a sibling stays as it is. -/
theorem eq_of_governor (hfg : f.Becomes g) {governor : String × Derivation}
    (hf : f.kind.governor? = some governor) : g = f := by
  rcases hfg with rfl | ⟨_, _, _, hk, -⟩
  · rfl
  · rw [hk.governor?] at hf
    cases hf

/-- What is sized by a sibling was so when it was declared. -/
theorem eq_of_governor_right (hfg : f.Becomes g) {governor : String × Derivation}
    (hg : g.kind.governor? = some governor) : g = f := by
  rcases hfg with rfl | ⟨_, _, _, _, rfl⟩
  · rfl
  · cases hg

/-- A field that was declared as content and holds a size was declared as its carrier. -/
theorem carries_of_derived (hfg : f.Becomes g) (hf : f.isContent) {width : Width}
    {content : String} {rule : Derivation} (hg : g.kind = .derived width content rule) :
    ∃ w, f.kind.Carries w := by
  rcases hfg with rfl | ⟨w, _, _, hk, -⟩
  · simp [isContent, hg] at hf
  · exact ⟨w, hk⟩

end Field.Becomes

theorem becomes_trans {fs gs hs : List Field} (h : List.Forall₂ Field.Becomes fs gs)
    (h' : List.Forall₂ Field.Becomes gs hs) : List.Forall₂ Field.Becomes fs hs := by
  induction h generalizing hs with
  | nil => exact h'
  | cons hfg _ ih =>
    cases h' with
    | cons hgh hrest => exact .cons (hfg.trans hgh) (ih hrest)

theorem names_of_becomes {fs gs : List Field} (h : List.Forall₂ Field.Becomes fs gs) :
    gs.map (·.name) = fs.map (·.name) := by
  induction h with
  | nil => rfl
  | cons hfg _ ih => rw [List.map_cons, List.map_cons, hfg.name_eq, ih]

/-- Settling a binding turns its carrier into a size and leaves the others as they are. -/
theorem becomes_settle {fields : List Field} {b : Binding} {carrier : Field} {width : Width}
    (hn : (fields.map (·.name)).Nodup) (hc : carrier ∈ fields) (hs : carrier.name = b.sizeField)
    (hk : carrier.kind.Carries width) :
    List.Forall₂ Field.Becomes fields (fields.map (b.settle width)) := by
  rw [List.forall₂_map_right_iff, List.forall₂_same]
  intro f hf
  unfold Binding.settle
  split
  · next hname =>
    obtain rfl := List.inj_on_of_nodup_map hn hf hc (hname.trans hs.symm)
    exact .inr ⟨width, b.content, b.rule, hk, rfl⟩
  · exact .refl f

/-- Settling bindings turns fields into sizes, and nothing else. -/
theorem becomes_of_foldlM {owner : String} {bs : List Binding} {fields bound : List Field}
    (h : bs.foldlM (bindSize owner) fields = .ok bound) (hn : (fields.map (·.name)).Nodup) :
    List.Forall₂ Field.Becomes fields bound := by
  induction bs generalizing fields with
  | nil =>
    cases h
    exact List.forall₂_same.2 fun f _ => .refl f
  | cons b bs ih =>
    rw [List.foldlM_cons] at h
    obtain ⟨fields₁, h₁, h⟩ := bind_eq_ok_iff.1 h
    obtain ⟨carrier, width, hfind, hk, rfl⟩ := bindSize_eq_ok_iff.1 h₁
    have hmem : carrier ∈ fields := List.takeWhile_subset _ (List.mem_of_find?_eq_some hfind)
    have hs : carrier.name = b.sizeField := by simpa using List.find?_some hfind
    have hfirst := becomes_settle hn hmem hs hk
    have hrest := ih h (names_of_becomes hfirst ▸ hn)
    exact becomes_trans hfirst hrest

/-- The structure has the fields and constants that its layout declares, but for the fields that
have been turned into sizes. -/
def Structure.Splices (d : Document) (s : Structure) : Prop :=
  ∃ layout fs, d.layout? s.name = some layout ∧ Spliced d layout fs s.constants ∧
    List.Forall₂ Field.Becomes fs s.fields

section Built

variable {d : Document} {below structures : List Structure}

theorem spliced_of_pieces (hbelow : ∀ s ∈ below, s.Splices d) {owner : String}
    {layout : List Attribute} {p : Piece} (h : pieces d below owner layout = .ok p) :
    ∃ fs, Spliced d layout fs p.constants ∧ List.Forall₂ Field.Becomes fs p.fields := by
  induction layout generalizing p with
  | nil =>
    cases h
    exact ⟨[], .nil, .nil⟩
  | cons a rest ih =>
    obtain ⟨first, hfirst, h⟩ := bind_eq_ok_iff.1 h
    obtain ⟨others, hothers, h⟩ := bind_eq_ok_iff.1 h
    cases h
    obtain ⟨gs, hgs, hrest⟩ := ih hothers
    rcases hdisp : a.disposition with _ | (_ | _)
    · obtain ⟨name, kind, hname, hkind, -, rfl⟩ := (Attribute.piece_field_iff hdisp).1 hfirst
      exact ⟨⟨name, kind⟩ :: gs, .field hdisp hname hkind hgs, .cons (.refl _) hrest⟩
    · obtain ⟨-, s, hs, rfl⟩ := (Attribute.piece_inline_iff hdisp).1 hfirst
      obtain ⟨inner, fs, hinner, hfs, hbecomes⟩ := hbelow s (mem_of_findStructure? hs)
      rw [name_of_findStructure? hs] at hinner
      exact ⟨fs ++ gs, .inline hdisp hinner hfs hgs, List.rel_append hbecomes hrest⟩
    · obtain ⟨c, hc, rfl⟩ := (Attribute.piece_const_iff hdisp).1 hfirst
      exact ⟨gs, .const hdisp hc hgs, hrest⟩

/-- The structures that are built have the fields that their layouts declare. -/
theorem Built.splices (h : Built d structures) : ∀ s ∈ structures, s.Splices d := by
  induction h with
  | nil => simp
  | @cons s below layout p _ hlayout hready hp hs hbelow ih =>
    intro t ht
    rcases List.mem_cons.1 ht with rfl | ht
    · obtain ⟨fs, hspliced, hfields⟩ := spliced_of_pieces ih hp
      obtain ⟨hnames, -, bound, hbound, heq⟩ := assemble_eq_ok_iff.1 hs
      rw [heq] at hlayout ⊢
      exact ⟨layout, fs, hlayout, hspliced, becomes_trans hfields (becomes_of_foldlM hbound hnames)⟩
    · exact ih t ht

end Built

end WireSchema
