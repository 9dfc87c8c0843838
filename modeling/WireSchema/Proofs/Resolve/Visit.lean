import WireSchema.Proofs.Resolve.Built

/-!
# The walk through a document

A visit lays out one structure and all that it depends on, and leaves what is laid out already in
place. The invariant is that of `Built`; along with it goes that no structure on the path to the
visit is laid out under way, so that the structure visited is new when its turn comes.

* `Extends`: what a visit does to the list of structures.
* `visit_extends`, `built_of_resolve`: the structures of a resolved schema are built from the
  document.
* `layered_of_resolve`: they are layered.
-/

namespace WireSchema

/-- What a visit does to the list of structures: it puts new ones in front, none of which is on the
path. -/
structure Extends (d : Document) (path : List String) (old new : List Structure) : Prop where
  built : Built d new
  grown : ∃ added, new = added ++ old ∧ ∀ s ∈ added, s.name ∉ path

namespace Extends

variable {d : Document} {path : List String} {xs ys zs : List Structure}

theorem refl (h : Built d xs) : Extends d path xs xs := ⟨h, [], rfl, by simp⟩

theorem trans (h₁ : Extends d path xs ys) (h₂ : Extends d path ys zs) : Extends d path xs zs := by
  obtain ⟨added₁, rfl, hpath₁⟩ := h₁.grown
  obtain ⟨added₂, rfl, hpath₂⟩ := h₂.grown
  refine ⟨h₂.built, added₂ ++ added₁, by simp, fun s hs => ?_⟩
  rcases List.mem_append.1 hs with hs | hs
  · exact hpath₂ s hs
  · exact hpath₁ s hs

theorem find (h : Extends d path xs ys) {name : String} {s : Structure}
    (hs : findStructure? xs name = some s) : findStructure? ys name = some s := by
  obtain ⟨added, rfl, -⟩ := h.grown
  exact h.built.layered.find_append hs

theorem isSome (h : Extends d path xs ys) {name : String}
    (hs : (findStructure? xs name).isSome) : (findStructure? ys name).isSome := by
  obtain ⟨s, hs⟩ := Option.isSome_iff_exists.1 hs
  exact Option.isSome_iff_exists.2 ⟨s, h.find hs⟩

/-- What waits on the path is not laid out by the way. -/
theorem find_eq_none (h : Extends d path xs ys) {name : String} (hpath : name ∈ path)
    (hnone : findStructure? xs name = none) : findStructure? ys name = none := by
  obtain ⟨added, rfl, hnew⟩ := h.grown
  rw [findStructure?_append, hnone, Option.or_none]
  refine List.find?_eq_none.2 fun s hs => ?_
  have : s.name ≠ name := by
    rintro rfl
    exact hnew s hs hpath
  simpa using this

end Extends

/-- What a visit of a declared structure is to achieve: that it is laid out. -/
def Visits (d : Document) (path : List String)
    (visit : String → List Attribute → List Structure → Except SchemaError (List Structure)) :
    Prop :=
  ∀ name layout xs ys, d.layout? name = some layout → Built d xs → visit name layout xs = .ok ys →
    Extends d path xs ys ∧ (findStructure? ys name).isSome

/-- The list of structures with the one that an attribute depends on. -/
def layDependency
    (visit : String → List Attribute → List Structure → Except SchemaError (List Structure))
    (d : Document) (a : Attribute) (structures : List Structure) :
    Except SchemaError (List Structure) :=
  match a.dependency? d with
  | some (type, layout) => visit type layout structures
  | none => .ok structures

theorem layAttributes_cons
    (visit : String → List Attribute → List Structure → Except SchemaError (List Structure))
    (d : Document) (owner : String) (a : Attribute) (rest : List Attribute)
    (structures : List Structure) :
    layAttributes visit d owner (a :: rest) structures = do
      let structures ← layDependency visit d a structures
      let first ← a.piece d structures owner
      let (structures, others) ← layAttributes visit d owner rest structures
      return (structures, first ++ others) := by
  conv_lhs => unfold layAttributes
  unfold layDependency
  cases a.dependency? d <;> rfl

/-- What an attribute depends on is there before its contribution is computed. -/
theorem layDependency_extends {d : Document} {path : List String}
    {visit : String → List Attribute → List Structure → Except SchemaError (List Structure)}
    (hv : Visits d path visit) {a : Attribute} {xs ys : List Structure} (hb : Built d xs)
    (h : layDependency visit d a xs = .ok ys) :
    Extends d path xs ys ∧ ∀ t, a.dependency? d = some t → (findStructure? ys t.1).isSome := by
  unfold layDependency at h
  split at h
  · next type layout hdep =>
    obtain ⟨hext, hsome⟩ := hv type layout xs ys (Attribute.layout?_of_dependency? hdep) hb h
    refine ⟨hext, fun t ht => ?_⟩
    cases hdep.symm.trans ht
    exact hsome
  · next hdep =>
    cases h
    exact ⟨.refl hb, fun t ht => nomatch hdep.symm.trans ht⟩

/-- The layouts of attributes are visited one after the other, and their contributions stay what
they are. -/
theorem layAttributes_extends {d : Document} {path : List String} {owner : String}
    {visit : String → List Attribute → List Structure → Except SchemaError (List Structure)}
    (hv : Visits d path visit) {layout : List Attribute} {xs ys : List Structure} {p : Piece}
    (hb : Built d xs) (h : layAttributes visit d owner layout xs = .ok (ys, p)) :
    Extends d path xs ys ∧ Ready d ys layout ∧ pieces d ys owner layout = .ok p := by
  induction layout generalizing xs p with
  | nil =>
    cases h
    exact ⟨.refl hb, by simp [Ready], rfl⟩
  | cons a rest ih =>
    rw [layAttributes_cons] at h
    obtain ⟨xs₁, h₁, h⟩ := bind_eq_ok_iff.1 h
    obtain ⟨first, hfirst, h⟩ := bind_eq_ok_iff.1 h
    obtain ⟨⟨ys', others⟩, hrest, h⟩ := bind_eq_ok_iff.1 h
    cases h
    obtain ⟨hstep, hdep⟩ := layDependency_extends hv hb h₁
    obtain ⟨hext, hready, hothers⟩ := ih hstep.built hrest
    refine ⟨hstep.trans hext, ?_, ?_⟩
    · intro b hb t ht
      rcases List.mem_cons.1 hb with rfl | hb
      · exact hext.isSome (hdep t ht)
      · exact hready b hb t ht
    -- the contribution was computed before the later layouts, which leave it as it is
    · have hsame := (LaidAlike.of_grown fun _ _ => hext.find).piece hdep hfirst
      exact bind_eq_ok_iff.2 ⟨first, hsame, bind_eq_ok_iff.2 ⟨others, hothers, rfl⟩⟩

/-- A visit lays out the structure that it visits. -/
theorem visit_extends (d : Document) (room : Nat) (path : List String) :
    Visits d path (visit d room path) := by
  induction room generalizing path with
  | zero =>
    intro name layout xs ys _ hb h
    unfold visit at h
    split at h
    · next hsome =>
      cases h
      exact ⟨.refl hb, hsome⟩
    · split at h <;> cases h
  | succ room ih =>
    intro name layout xs ys hlayout hb h
    unfold visit at h
    split at h
    · next hsome =>
      cases h
      exact ⟨.refl hb, hsome⟩
    · next hnone =>
      split at h
      · cases h
      · next hpath =>
        obtain ⟨⟨below, p⟩, hlay, h⟩ := bind_eq_ok_iff.1 h
        obtain ⟨s, hs, h⟩ := bind_eq_ok_iff.1 h
        cases h
        obtain ⟨hext, hready, hp⟩ := layAttributes_extends (ih (name :: path)) hb hlay
        obtain ⟨added, rfl, hadded⟩ := hext.grown
        -- the structure is on the path of what is laid out for it, so it is still new
        have hname : s.name = name :=
          (sound_assemble (sound_pieces hext.built.layered hready hp) hs).1
        have hnew := hext.find_eq_none List.mem_cons_self (Option.not_isSome_iff_eq_none.1 hnone)
        subst hname
        refine ⟨⟨.cons hnew hlayout hready hp hs hext.built, s :: added, rfl, fun t ht => ?_⟩, ?_⟩
        · rcases List.mem_cons.1 ht with rfl | ht
          · exact hpath
          · exact fun h => hadded t ht (List.mem_cons_of_mem _ h)
        · rw [findStructure?_cons, if_pos rfl]
          rfl

/-! ### Whole documents -/

/-- The descriptor of a type of a document is the one that is found under its name. -/
theorem Document.get?_of_mem {d : Document} {name : String} {descriptor : Descriptor}
    (h : (name, descriptor) ∈ d.types) : d.get? name = some descriptor := by
  obtain ⟨types, hd⟩ := d
  show types.lookup name = some descriptor
  replace h : (name, descriptor) ∈ types := h
  induction types with
  | nil => cases h
  | cons q rest ih =>
    obtain ⟨n, t⟩ := q
    obtain ⟨hall, hrest⟩ := List.pairwise_cons.1 hd
    rcases List.mem_cons.1 h with h | hmem
    · cases h
      exact List.lookup_cons_self
    · have hne : name ≠ n := by
        rintro rfl
        exact String.lt_irrefl _ (hall (name, descriptor) hmem)
      rw [List.lookup_cons, beq_false_of_ne hne]
      exact ih hrest hmem

/-- What is found under a name is one of the types. -/
theorem Document.mem_of_get? {d : Document} {name : String} {descriptor : Descriptor}
    (h : d.get? name = some descriptor) : (name, descriptor) ∈ d.types := by
  obtain ⟨front, back, htypes, -⟩ := List.lookup_eq_some_iff.1 h
  rw [htypes]
  simp

/-- Adding a type lays out what it needs on top of what is there. -/
theorem addType_extends {d : Document} {old new : Schema} {name : String} {descriptor : Descriptor}
    (hget : d.get? name = some descriptor) (hb : Built d old.structures)
    (h : Schema.addType d old name descriptor = .ok new) :
    Extends d [] old.structures new.structures := by
  unfold Schema.addType at h
  split at h
  · next layout =>
    obtain ⟨structures, hv, h⟩ := bind_eq_ok_iff.1 h
    cases h
    exact (visit_extends d _ [] name layout _ _ (Document.layout?_eq_some_iff.2 hget) hb hv).1
  · obtain ⟨width, _, h⟩ := bind_eq_ok_iff.1 h
    obtain ⟨_, _, h⟩ := bind_eq_ok_iff.1 h
    cases h
    exact .refl hb
  · obtain ⟨_, _, h⟩ := bind_eq_ok_iff.1 h
    cases h
    exact .refl hb

/-- So does adding several types. -/
theorem addTypes_extends {d : Document} {types : List (String × Descriptor)}
    (htypes : types ⊆ d.types) {old new : Schema} (hb : Built d old.structures)
    (h : types.foldlM (fun schema (name, descriptor) =>
      Schema.addType d schema name descriptor) old = .ok new) :
    Extends d [] old.structures new.structures := by
  refine foldlM_preserves (P := fun schema => Extends d [] old.structures schema.structures) ?_ h
    (.refl hb)
  rintro ⟨name, descriptor⟩ hmem schema schema' hext h
  exact hext.trans (addType_extends (d.get?_of_mem (htypes hmem)) hext.built h)

/-- The structures of a resolved schema are built from the document. -/
theorem built_of_resolve {d : Document} {schema : Schema} (h : Schema.resolve d = .ok schema) :
    Built d schema.structures :=
  (addTypes_extends (List.Subset.refl _) .nil h).built

theorem layered_of_resolve {d : Document} {schema : Schema} (h : Schema.resolve d = .ok schema) :
    Layered schema.structures := (built_of_resolve h).layered

/-- Every type of a document that is resolved has been added on the way. -/
theorem exists_addType_of_resolve {d : Document} {schema : Schema}
    (h : Schema.resolve d = .ok schema) {name : String} {descriptor : Descriptor}
    (hget : d.get? name = some descriptor) :
    ∃ old new, Schema.addType d old name descriptor = .ok new ∧ Built d old.structures ∧
      Extends d [] new.structures schema.structures := by
  obtain ⟨before, after, old, new, htypes, hbefore, hstep, hafter⟩ :=
    exists_step_of_foldlM h (Document.mem_of_get? hget)
  have hold := addTypes_extends (d := d) (by simp [htypes]) .nil hbefore
  have hnew := addType_extends hget hold.built hstep
  exact ⟨old, new, hstep, hold.built, addTypes_extends (by simp [htypes]) hnew.built hafter⟩

/-- Every declared structure is one of the schema. -/
theorem isSome_of_resolve {d : Document} {schema : Schema} (h : Schema.resolve d = .ok schema)
    {name : String} (hlayout : (d.layout? name).isSome) : (schema.structure? name).isSome := by
  obtain ⟨layout, hlayout⟩ := Option.isSome_iff_exists.1 hlayout
  obtain ⟨old, new, hadd, hb, hext⟩ :=
    exists_addType_of_resolve h (Document.layout?_eq_some_iff.1 hlayout)
  obtain ⟨structures, hv, hadd⟩ := bind_eq_ok_iff.1 hadd
  cases hadd
  exact hext.isSome (visit_extends d _ [] name layout _ _ hlayout hb hv).2

/-- The layout of a declared structure has been laid out, on top of what it depends on. -/
theorem exists_laid_of_resolve {d : Document} {schema : Schema}
    (h : Schema.resolve d = .ok schema) {name : String} {layout : List Attribute}
    (hlayout : d.layout? name = some layout) :
    ∃ above below s p, schema.structures = above ++ s :: below ∧ s.name = name ∧
      Built d below ∧ Ready d below layout ∧ pieces d below name layout = .ok p ∧
      assemble below name p = .ok s := by
  obtain ⟨s, hs⟩ := Option.isSome_iff_exists.1
    (isSome_of_resolve h (Option.isSome_iff_exists.2 ⟨layout, hlayout⟩))
  obtain rfl := name_of_findStructure? hs
  obtain ⟨above, below, layout', p, hstructures, hbelow, hlayout', hready, hp, hassemble⟩ :=
    (built_of_resolve h).exists_below (mem_of_findStructure? hs)
  obtain rfl := Option.some.inj (hlayout.symm.trans hlayout')
  exact ⟨above, below, s, p, hstructures, rfl, hbelow, hready, hp, hassemble⟩

/-- It has been assembled from what its attributes contribute, also when all is laid out. -/
theorem exists_assembled_of_resolve {d : Document} {schema : Schema}
    (h : Schema.resolve d = .ok schema) {name : String} {layout : List Attribute}
    (hlayout : d.layout? name = some layout) :
    ∃ below s p, schema.structure? name = some s ∧
      pieces d schema.structures name layout = .ok p ∧ assemble below name p = .ok s := by
  obtain ⟨above, below, s, p, hstructures, rfl, -, hready, hp, hs⟩ := exists_laid_of_resolve h hlayout
  have hl := layered_of_resolve h
  rw [Schema.structure?]
  rw [hstructures] at hl ⊢
  refine ⟨below, s, p, hl.find_of_mem (by simp), ?_, hs⟩
  exact (LaidAlike.of_grown fun _ _ => hl.find_above).pieces hready hp

end WireSchema
