import WireSchema.Proofs.Resolve.Visit

/-!
# Documents that differ in one structure

What does not depend on a structure is laid out the same whatever that structure is. `LaidAlike`
says that what is laid out for one document is laid out the same for another; by `Built.laidAlike`
this is so as soon as the other document has the same types, and by `laidAlike_insert` it is so below
a structure that is given another layout.
-/

namespace WireSchema

/-! ### Replacing a type -/

namespace Document

theorem lookup_place (name other : String) (descriptor : Descriptor)
    (types : List (String × Descriptor)) :
    (place name descriptor types).lookup other =
      if other = name then some descriptor else types.lookup other := by
  induction types with
  | nil => by_cases h : other = name <;> simp [place, List.lookup_cons, h, beq_false_of_ne]
  | cons q rest ih =>
    obtain ⟨n, t⟩ := q
    unfold place
    split
    · next heq =>
      subst heq
      by_cases h : other = name <;> simp [List.lookup_cons, h, beq_false_of_ne]
    · next hne =>
      split
      · by_cases h : other = name <;> simp [List.lookup_cons, h, beq_false_of_ne]
      · rw [List.lookup_cons, List.lookup_cons, ih]
        by_cases h : other = name
        · simp [h, beq_false_of_ne hne]
        · simp only [if_neg h]

theorem get?_insert (d : Document) (name other : String) (descriptor : Descriptor) :
    (d.insert name descriptor).get? other =
      if other = name then some descriptor else d.get? other :=
  lookup_place name other descriptor d.types

end Document

/-! ### Structures that are found again -/

section Again

variable {d d' : Document} {xs ys : List Structure}

/-- What is assembled from the same contributions is the same, if it has the same extent. -/
theorem eq_of_assemble {below below' : List Structure} {name : String} {p : Piece}
    {s s' : Structure} (h : assemble below name p = .ok s) (h' : assemble below' name p = .ok s')
    (hs : s.Sound ys) (hs' : s'.Sound ys) : s = s' := by
  obtain ⟨-, -, fields, hfields, rfl⟩ := assemble_eq_ok_iff.1 h
  obtain ⟨-, -, fields', hfields', rfl⟩ := assemble_eq_ok_iff.1 h'
  obtain rfl := Except.ok.inj (hfields.symm.trans hfields')
  have hfixed := hs.fixedSize_eq.trans hs'.fixedSize_eq.symm
  have hmin := hs.minSize_eq.trans hs'.minSize_eq.symm
  exact Structure.mk.injEq .. ▸ ⟨rfl, rfl, rfl, hfixed, hmin⟩

/-- Structures are found again in the schema of another document that gives them the same layouts
and has the same types that are no structures. -/
theorem Built.laidAlike (hx : Built d xs)
    (hscalars : ∀ type, d.layout? type = none → d'.get? type = d.get? type)
    (hlayouts : ∀ type s, findStructure? xs type = some s → d'.get? type = d.get? type)
    {schema : Schema} (h : Schema.resolve d' = .ok schema) :
    LaidAlike d d' xs schema.structures := by
  refine ⟨hscalars, hlayouts, ?_⟩
  induction hx with
  | nil => exact nofun
  | @cons t below layout p hnew hlayout hready hp ht hbelow ih =>
    have hx : Built d ([t] ++ below) := .cons hnew hlayout hready hp ht hbelow
    have hbelow_layouts : ∀ type s, findStructure? below type = some s →
        d'.get? type = d.get? type := fun type s hs =>
      hlayouts type s (hx.layered.find_append hs)
    have halike : LaidAlike d d' below schema.structures :=
      ⟨hscalars, hbelow_layouts, ih hbelow_layouts⟩
    intro type s hs
    rw [findStructure?_cons] at hs
    split at hs
    · next hname =>
      cases hs
      subst hname
      have hlayout' : d'.layout? t.name = some layout := by
        rw [Document.layout?_eq_some_iff] at hlayout ⊢
        rw [hlayouts t.name t (by rw [findStructure?_cons, if_pos rfl]), hlayout]
      obtain ⟨below', t', p', hfind, hp', ht'⟩ := exists_assembled_of_resolve h hlayout'
      -- both layouts come to the same fields, bindings and constants
      obtain rfl := Except.ok.inj ((halike.pieces hready hp).symm.trans hp')
      have hsound := (sound_assemble (sound_pieces hbelow.layered hready hp) ht).2
      have hsound' := (layered_of_resolve h).sound (mem_of_findStructure? hfind)
      obtain rfl := eq_of_assemble ht ht' (hsound.grown halike.grown) hsound'
      exact hfind
    · exact halike.grown type s hs

/-- What does not depend on a structure is laid out the same with another layout of it. -/
theorem laidAlike_insert {owner : String} {layout layout' : List Attribute}
    (hlayout : d.layout? owner = some layout) (hx : Built d xs)
    (hnew : findStructure? xs owner = none) {schema : Schema}
    (h : Schema.resolve (d.insert owner (.struct layout')) = .ok schema) :
    LaidAlike d (d.insert owner (.struct layout')) xs schema.structures := by
  have hget : ∀ type, type ≠ owner →
      (d.insert owner (.struct layout')).get? type = d.get? type := by
    intro type hne
    rw [Document.get?_insert, if_neg hne]
  refine hx.laidAlike (fun type hnone => hget type ?_) (fun type s hs => hget type ?_) h
  · rintro rfl
    exact nomatch hlayout.symm.trans hnone
  · rintro rfl
    exact nomatch hs.symm.trans hnew

end Again

end WireSchema
