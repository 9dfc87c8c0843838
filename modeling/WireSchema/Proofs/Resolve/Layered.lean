import WireSchema.Layout.Extent
import WireSchema.Proofs.Resolve.Wiring

/-!
# Layered schemas

A schema lists its structures in layers: each structure refers only to those after it in the list,
and keeps its own promises (`Structure.Sound`). `Layered` says so of a list of structures; it is
what reading and writing rely on.

* `Layered.find_append`: what is found below is found from above.
* `Layered.sound`: a structure of the list keeps its promises with the list as a whole.
* `Layered.interpret_append`: what is found below means the same from above.
* `Layered.interpret_of_find`: a structure means what its fields make of the meanings in the list.
* `layer`: how deep a structure lies in the list; what it refers to lies deeper.
-/

namespace WireSchema

/-- The types of the structures that a kind of field refers to. -/
def FieldKind.references : FieldKind → List String
  | embedded type => [type]
  | repeated (.struct type) _ => [type]
  | _ => []

/-- What a structure promises, given the structures below it. -/
structure Structure.Sound (below : List Structure) (s : Structure) : Prop where
  /-- The structures that the fields refer to are there. -/
  references : ∀ f ∈ s.fields, ∀ type ∈ f.kind.references, (findStructure? below type).isSome
  /-- No two fields have the same name. -/
  distinct : (s.fields.map (·.name)).Nodup
  /-- No field has the name of a constant. -/
  disjoint : ∀ f ∈ s.fields, f.name ∉ s.constants.map (·.name)
  /-- Size fields and the fields that they size agree. -/
  wired : Wired [] s.fields
  /-- Every item of a group takes a byte. -/
  nonempty : ∀ f ∈ s.fields, ∀ item cardinality, f.kind = .repeated item cardinality →
    0 < item.minSize below
  /-- Every constant fits its width. -/
  fits : ∀ c ∈ s.constants, c.value.toNat ≤ c.width.maxValue
  fixedSize_eq : s.fixedSize = fixedSizeOf below s.fields
  minSize_eq : s.minSize = minSizeOf below s.fields

theorem Structure.constant?_eq_none_iff {s : Structure} {name : String} :
    s.constant? name = none ↔ name ∉ s.constants.map (·.name) := by
  rw [constant?, List.find?_eq_none, List.mem_map]
  constructor
  · rintro h ⟨c, hc, hname⟩
    exact h c hc (decide_eq_true hname)
  · intro h c hc hname
    exact h ⟨c, hc, of_decide_eq_true hname⟩

/-- No constant is found under the name of a field. -/
theorem Structure.Sound.constant?_eq_none {below : List Structure} {s : Structure}
    (hs : s.Sound below) {f : Field} (hf : f ∈ s.fields) : s.constant? f.name = none :=
  Structure.constant?_eq_none_iff.2 (hs.disjoint f hf)

/-- Structures of different names, each of which is sound with those after it. -/
inductive Layered : List Structure → Prop
  | nil : Layered []
  | cons {s : Structure} {below : List Structure} :
    findStructure? below s.name = none → s.Sound below → Layered below → Layered (s :: below)

theorem findStructure?_cons (s : Structure) (below : List Structure) (name : String) :
    findStructure? (s :: below) name =
      if s.name = name then some s else findStructure? below name := by
  by_cases h : s.name = name <;> simp [findStructure?, h]

theorem name_of_findStructure? {structures : List Structure} {name : String} {s : Structure}
    (h : findStructure? structures name = some s) : s.name = name := by
  simpa using List.find?_some h

theorem mem_of_findStructure? {structures : List Structure} {name : String} {s : Structure}
    (h : findStructure? structures name = some s) : s ∈ structures :=
  List.mem_of_find?_eq_some h

/-- What is found in an extension is found in the list that it extends, or is new. -/
theorem findStructure?_append (added structures : List Structure) (name : String) :
    findStructure? (added ++ structures) name =
      (findStructure? added name).or (findStructure? structures name) := by
  simp [findStructure?]

namespace Layered

variable {structures added : List Structure}

/-- No structure is added under a name that is taken. -/
theorem find_append (h : Layered (added ++ structures)) {name : String} {s : Structure}
    (hs : findStructure? structures name = some s) :
    findStructure? (added ++ structures) name = some s := by
  induction added with
  | nil => exact hs
  | cons t rest ih =>
    cases h with
    | cons hnew _ hrest =>
      rw [List.cons_append, findStructure?_cons, if_neg, ih hrest]
      rintro rfl
      exact nomatch (ih hrest).symm.trans hnew

/-- What is found below a structure is found from above it. -/
theorem find_above {above below : List Structure} {s t : Structure} {name : String}
    (h : Layered (above ++ s :: below)) (ht : findStructure? below name = some t) :
    findStructure? (above ++ s :: below) name = some t := by
  rw [List.append_cons] at h ⊢
  exact h.find_append ht

theorem find_of_mem (h : Layered structures) {s : Structure} (hs : s ∈ structures) :
    findStructure? structures s.name = some s := by
  induction h with
  | nil => cases hs
  | @cons t below hnew _ _ ih =>
    rw [findStructure?_cons]
    rcases List.mem_cons.1 hs with rfl | hs
    · rw [if_pos rfl]
    · rw [if_neg, ih hs]
      intro hname
      rw [hname, ih hs] at hnew
      cases hnew

/-- Every structure of the list stands above the layers that it needs. -/
theorem exists_below (h : Layered structures) {s : Structure} (hs : s ∈ structures) :
    ∃ above below, structures = above ++ s :: below ∧ s.Sound below ∧ Layered below := by
  induction h with
  | nil => cases hs
  | @cons t below _ ht hbelow ih =>
    rcases List.mem_cons.1 hs with rfl | hs
    · exact ⟨[], below, rfl, ht, hbelow⟩
    · obtain ⟨above, below', rfl, hsound⟩ := ih hs
      exact ⟨t :: above, below', rfl, hsound⟩

end Layered

/-! ### The layer of a structure -/

/-- How far from the end of the list the structure of the given name is: the number of structures
from it on. -/
def layer (structures : List Structure) (name : String) : Nat :=
  (structures.dropWhile (·.name ≠ name)).length

theorem layer_le (structures : List Structure) (name : String) :
    layer structures name ≤ structures.length :=
  (List.dropWhile_sublist _).length_le

theorem layer_cons (s : Structure) (below : List Structure) (name : String) :
    layer (s :: below) name = if s.name = name then below.length + 1 else layer below name := by
  by_cases h : s.name = name <;> simp [layer, h]

theorem layer_pos {structures : List Structure} {name : String}
    (h : (findStructure? structures name).isSome) : 0 < layer structures name := by
  induction structures with
  | nil => cases h
  | cons s below ih =>
    rw [layer_cons]
    split
    · exact Nat.succ_pos _
    · next hne =>
      rw [findStructure?_cons, if_neg hne] at h
      exact ih h

/-- What is found below a structure lies in a deeper layer. -/
theorem Layered.layer_lt {above below : List Structure} {s : Structure}
    (h : Layered (above ++ s :: below)) {name : String}
    (hname : (findStructure? below name).isSome) :
    layer (above ++ s :: below) name < layer (above ++ s :: below) s.name := by
  obtain ⟨t, ht⟩ := Option.isSome_iff_exists.1 hname
  induction above with
  | nil =>
    cases h with
    | cons hnew =>
      have hne : s.name ≠ name := by
        rintro rfl
        exact nomatch ht.symm.trans hnew
      rw [List.nil_append, layer_cons, if_neg hne, layer_cons, if_pos rfl]
      exact Nat.lt_succ_of_le (layer_le below name)
  | cons u above ih =>
    cases h with
    | cons hnew _ hrest =>
      replace hrest : Layered (above ++ s :: below) := hrest
      have hlower := hrest.find_above ht
      have hself : findStructure? (above ++ s :: below) s.name = some s :=
        hrest.find_of_mem (by simp)
      -- the topmost structure is new, so it has another name than both
      have hne : u.name ≠ name := by
        rintro rfl
        exact nomatch hlower.symm.trans hnew
      have hne' : u.name ≠ s.name := by
        intro heq
        rw [heq] at hnew
        exact nomatch hself.symm.trans hnew
      rw [List.cons_append, layer_cons, if_neg hne, layer_cons, if_neg hne']
      exact ih hrest

/-- No structure of a layered list stands below itself. -/
theorem Layered.find_below_eq_none {above below : List Structure} {s : Structure}
    (h : Layered (above ++ s :: below)) : findStructure? below s.name = none := by
  rw [← Option.not_isSome_iff_eq_none]
  intro hsome
  exact Nat.lt_irrefl _ (h.layer_lt hsome)

/-- What a structure refers to lies in a deeper layer. -/
theorem Layered.layer_lt_of_reference {structures : List Structure} (h : Layered structures)
    {s : Structure} (hs : s ∈ structures) {f : Field} (hf : f ∈ s.fields) {type : String}
    (ht : type ∈ f.kind.references) : layer structures type < layer structures s.name := by
  obtain ⟨above, below, rfl, hsound, -⟩ := h.exists_below hs
  exact h.layer_lt (hsound.references f hf type ht)

/-! ### Sizes as machine words -/

theorem word?_eq_some_iff {m n : Nat} : word? m = some n ↔ m < 2 ^ 64 ∧ m = n := by
  simp [word?]

theorem word?_eq_none_iff {n : Nat} : word? n = none ↔ 2 ^ 64 ≤ n := by
  simp [word?]

/-- The length of a list of fields is the sum of theirs, if this is a machine word. -/
theorem fixedSizeOf_eq_some_iff {structures : List Structure} {fields : List Field} {n : Nat} :
    fixedSizeOf structures fields = some n ↔
      ∃ sizes, (fields.mapM fun f : Field => f.kind.fixedSize? structures) = some sizes ∧
        sizes.sum < 2 ^ 64 ∧ sizes.sum = n := by
  refine Option.bind_eq_some_iff.trans ?_
  simp only [word?_eq_some_iff]

/-! ### Extents depend on what is referred to -/

section Congr

variable {xs ys : List Structure}

theorem FieldKind.fixedSize?_congr {kind : FieldKind}
    (h : ∀ type ∈ kind.references, findStructure? xs type = findStructure? ys type) :
    kind.fixedSize? xs = kind.fixedSize? ys := by
  cases kind with
  | embedded type => simp [fixedSize?, Element.fixedSize?, h type (by simp [references])]
  | repeated item cardinality =>
    cases item with
    | struct type => cases cardinality <;>
        simp [fixedSize?, Element.fixedSize?, h type (by simp [references])]
    | scalar width => cases cardinality <;> rfl
    | blob size => cases cardinality <;> rfl
  | _ => rfl

theorem Element.minSize_congr {item : Element}
    (h : ∀ type, item = .struct type → findStructure? xs type = findStructure? ys type) :
    item.minSize xs = item.minSize ys := by
  cases item with
  | struct type => simp [minSize, h type rfl]
  | _ => rfl

theorem FieldKind.minSize_congr {kind : FieldKind}
    (h : ∀ type ∈ kind.references, findStructure? xs type = findStructure? ys type) :
    kind.minSize xs = kind.minSize ys := by
  cases kind with
  | embedded type => simp [minSize, Element.minSize, h type (by simp [references])]
  | repeated item cardinality =>
    have hitem : item.minSize xs = item.minSize ys := by
      refine Element.minSize_congr fun t ht => ?_
      cases ht
      exact h _ (by simp [references])
    cases cardinality <;> simp [minSize, hitem]
  | _ => rfl

/-- A structure that is sound stays so where its references mean the same. -/
theorem Structure.Sound.congr {s : Structure} (hs : s.Sound xs)
    (h : ∀ f ∈ s.fields, ∀ type ∈ f.kind.references,
      findStructure? ys type = findStructure? xs type) :
    s.Sound ys where
  references f hf type ht := by
    rw [h f hf type ht]
    exact hs.references f hf type ht
  distinct := hs.distinct
  disjoint := hs.disjoint
  wired := hs.wired
  nonempty f hf item cardinality hk := by
    have heq : item.minSize ys = item.minSize xs := by
      refine Element.minSize_congr fun type ht => h f hf type ?_
      simp [hk, ht, FieldKind.references]
    rw [heq]
    exact hs.nonempty f hf item cardinality hk
  fits := hs.fits
  fixedSize_eq := by
    have heq : ∀ f ∈ s.fields, f.kind.fixedSize? ys = f.kind.fixedSize? xs := fun f hf =>
      FieldKind.fixedSize?_congr (h f hf)
    rw [hs.fixedSize_eq, fixedSizeOf, fixedSizeOf, mapM_congr heq]
  minSize_eq := by
    have heq : ∀ f ∈ s.fields, f.kind.minSize ys = f.kind.minSize xs := fun f hf =>
      FieldKind.minSize_congr (h f hf)
    rw [hs.minSize_eq, minSizeOf, minSizeOf, List.map_congr_left heq]

/-- A structure that is sound stays so where its references are found again. -/
theorem Structure.Sound.grown {s : Structure} (hs : s.Sound xs)
    (h : ∀ type t, findStructure? xs type = some t → findStructure? ys type = some t) :
    s.Sound ys := by
  refine hs.congr fun f hf type ht => ?_
  obtain ⟨t, ht⟩ := Option.isSome_iff_exists.1 (hs.references f hf type ht)
  rw [ht, h type t ht]

/-- A structure is sound with fewer structures as long as its references are among them. -/
theorem Structure.Sound.shrunk {s : Structure} (hs : s.Sound ys)
    (h : ∀ type t, findStructure? xs type = some t → findStructure? ys type = some t)
    (hreferences : ∀ f ∈ s.fields, ∀ type ∈ f.kind.references, (findStructure? xs type).isSome) :
    s.Sound xs := by
  refine hs.congr fun f hf type ht => ?_
  obtain ⟨t, ht⟩ := Option.isSome_iff_exists.1 (hreferences f hf type ht)
  rw [ht, h type t ht]

end Congr

/-! ### The meaning of a structure -/

theorem interpret_of_find_eq_none {β : Type} (unknown : String → β)
    (step : (String → β) → Structure → β) {structures : List Structure} {name : String}
    (h : findStructure? structures name = none) :
    interpret unknown step structures name = unknown name := by
  induction structures with
  | nil => rfl
  | cons s below ih =>
    rw [findStructure?_cons] at h
    split at h
    · cases h
    · next hne =>
      rw [interpret_tail _ _ _ hne]
      exact ih h

/-- A step that looks no further than the structures that the fields refer to. -/
def Local {β : Type} (step : (String → β) → Structure → β) : Prop :=
  ∀ (s : Structure) (nested nested' : String → β),
    (∀ f ∈ s.fields, ∀ type ∈ f.kind.references, nested type = nested' type) →
      step nested s = step nested' s

namespace Layered

variable {structures added : List Structure}

/-- A structure of the list keeps its promises with the list as a whole. -/
theorem sound (h : Layered structures) {s : Structure} (hs : s ∈ structures) :
    s.Sound structures := by
  obtain ⟨above, below, rfl, hsound, -⟩ := h.exists_below hs
  exact hsound.grown fun _ _ => h.find_above

section Interpret

variable {β : Type} (unknown : String → β) (step : (String → β) → Structure → β)

/-- What is found below means the same from above. -/
theorem interpret_append (h : Layered (added ++ structures)) {name : String}
    (hname : (findStructure? structures name).isSome) :
    interpret unknown step (added ++ structures) name = interpret unknown step structures name := by
  obtain ⟨s, hs⟩ := Option.isSome_iff_exists.1 hname
  induction added with
  | nil => rfl
  | cons t rest ih =>
    cases h with
    | cons hnew _ hrest =>
      rw [List.cons_append, interpret_tail, ih hrest]
      -- the topmost structure is new, so it has another name
      rintro rfl
      exact nomatch (hrest.find_append hs).symm.trans hnew

/-- The meaning of a structure is built from the meanings in the list as a whole. -/
theorem interpret_of_find (h : Layered structures) (hlocal : Local step) {name : String}
    {s : Structure} (hs : findStructure? structures name = some s) :
    interpret unknown step structures name = step (interpret unknown step structures) s := by
  obtain ⟨above, below, rfl, hsound, -⟩ := h.exists_below (mem_of_findStructure? hs)
  obtain rfl := name_of_findStructure? hs
  have hself : interpret unknown step (above ++ s :: below) s.name =
      interpret unknown step (s :: below) s.name :=
    h.interpret_append unknown step (by rw [findStructure?_cons, if_pos rfl]; rfl)
  rw [hself, interpret_head]
  refine hlocal s _ _ fun f hf type ht => ?_
  rw [List.append_cons] at h ⊢
  exact (h.interpret_append unknown step (hsound.references f hf type ht)).symm

/-- What is found again in another list means the same there. -/
theorem interpret_of_grown {xs ys : List Structure} (hx : Layered xs) (hy : Layered ys)
    (hlocal : Local step)
    (hgrown : ∀ type s, findStructure? xs type = some s → findStructure? ys type = some s)
    {name : String} (hname : (findStructure? xs name).isSome) :
    interpret unknown step ys name = interpret unknown step xs name := by
  induction hx generalizing name with
  | nil => cases hname
  | @cons s below hnew hs hbelow ih =>
    have hx : Layered ([s] ++ below) := .cons hnew hs hbelow
    have hgrown' : ∀ type t, findStructure? below type = some t →
        findStructure? ys type = some t := fun type t ht => hgrown type t (hx.find_append ht)
    by_cases heq : s.name = name
    · subst heq
      have hfound := hgrown s.name s (by rw [findStructure?_cons, if_pos rfl])
      rw [hy.interpret_of_find unknown step hlocal hfound, interpret_head]
      exact hlocal s _ _ fun f hf type ht => ih hgrown' (hs.references f hf type ht)
    · rw [findStructure?_cons, if_neg heq] at hname
      rw [interpret_tail _ _ _ heq, ih hgrown' hname]

/-- A structure means what its fields make of the meanings of the structures that they refer to. -/
theorem interpret_of_sound {xs below : List Structure} (hx : Layered xs) (hbelow : Layered below)
    (hlocal : Local step)
    (hgrown : ∀ type s, findStructure? below type = some s → findStructure? xs type = some s)
    {name : String} {s : Structure} (hs : findStructure? xs name = some s)
    (hsound : s.Sound below) :
    interpret unknown step xs name = step (interpret unknown step below) s := by
  rw [hx.interpret_of_find unknown step hlocal hs]
  exact hlocal s _ _ fun f hf type ht =>
    hbelow.interpret_of_grown unknown step hx hlocal hgrown (hsound.references f hf type ht)

end Interpret

end Layered

end WireSchema
