import WireSchema.Resolve.Assembly
import WireSchema.Proofs.Outcome
import Mathlib.Data.List.Nodup
import Mathlib.Data.List.TakeWhile

/-!
# Size fields and what they size

A field that is sized by a sibling names it, and the sibling, once it is a derived field, names the
field that it describes. `Wired` says that the two agree throughout a list of fields, apart from the
bindings that are still to be settled.

* `Wired.append`: lists of fields stay wired when one is put after the other.
* `Wired.settle`: settling a binding takes it off the list of those that are pending.
* `wired_of_foldlM`: once all bindings are settled, nothing is pending.

That a field stands before another in a list is said by `[d, f].Sublist fields`.
-/

namespace WireSchema

/-- Of a list of fields with different names, a field is found by its name. -/
theorem Field.find?_eq_of_mem {fields : List Field} {f : Field}
    (hn : (fields.map (·.name)).Nodup) (hf : f ∈ fields) :
    fields.find? (·.name = f.name) = some f := by
  cases h : fields.find? (·.name = f.name) with
  | none =>
    have := List.find?_eq_none.1 h f hf
    simp at this
  | some g =>
    have hname : g.name = f.name := by simpa using List.find?_some h
    rw [List.inj_on_of_nodup_map hn (List.mem_of_find?_eq_some h) hf hname]

/-- What governs the extent of a field: the name of the field that holds its size, and what that
size measures. -/
def FieldKind.governor? : FieldKind → Option (String × Derivation)
  | variableBlob sizeField => some (sizeField, .byteLength)
  | repeated _ (.counted sizeField) => some (sizeField, .itemCount)
  | repeated _ (.budgeted sizeField) => some (sizeField, .groupSize)
  | _ => none

/-- A field is content or holds a derived number. -/
theorem Field.isContent_or_derived (f : Field) :
    f.isContent ∨ ∃ width content rule, f.kind = .derived width content rule := by
  obtain ⟨name, kind⟩ := f
  cases kind with
  | derived width content rule => exact .inr ⟨width, content, rule, rfl⟩
  | _ => exact .inl rfl

theorem Field.not_isContent_of_derived {f : Field} {width : Width} {content : String}
    {rule : Derivation} (hk : f.kind = .derived width content rule) : ¬f.isContent := by
  simp [isContent, hk]

/-- What is sized by a sibling is content. -/
theorem Field.isContent_of_governor? {f : Field} {governor : String × Derivation}
    (h : f.kind.governor? = some governor) : f.isContent := by
  rcases f.isContent_or_derived with hf | ⟨width, content, rule, hk⟩
  · exact hf
  · rw [hk] at h
    cases h

/-- The binding that a field waits for when it is declared. -/
def Field.bindings (f : Field) : List Binding :=
  match f.kind.governor? with
  | some (sizeField, rule) => [⟨f.name, sizeField, rule⟩]
  | none => []

/-- Size fields and the fields that they size agree, but for the pending bindings. -/
structure Wired (pending : List Binding) (fields : List Field) : Prop where
  /-- The size of a field stands before it, unless it is still to be bound. -/
  governed : ∀ f ∈ fields, ∀ sizeField rule, f.kind.governor? = some (sizeField, rule) →
    ⟨f.name, sizeField, rule⟩ ∈ pending ∨
      ∃ width, [⟨sizeField, .derived width f.name rule⟩, f].Sublist fields
  /-- A derived field stands before the field that it describes, which names it. -/
  governs : ∀ d ∈ fields, ∀ width content rule, d.kind = .derived width content rule →
    ∃ f, [d, f].Sublist fields ∧ f.name = content ∧ f.kind.governor? = some (d.name, rule)
  /-- Every pending binding is that of a field. -/
  awaited : ∀ b ∈ pending, ∃ f ∈ fields,
    f.name = b.content ∧ f.kind.governor? = some (b.sizeField, b.rule)

namespace Wired

variable {bs cs : List Binding} {fs gs : List Field}

theorem nil : Wired [] [] := ⟨by simp, by simp, by simp⟩

/-- A content field alone waits for its own binding. -/
theorem single {f : Field} (h : f.isContent) : Wired f.bindings [f] where
  governed g hg sizeField rule hk := by
    rw [List.mem_singleton.1 hg] at hk ⊢
    exact .inl (by simp [Field.bindings, hk])
  governs d hd width content rule hk := by
    rw [List.mem_singleton.1 hd] at hk
    simp [Field.isContent, hk] at h
  awaited b hb := by
    refine ⟨f, List.mem_singleton_self f, ?_⟩
    unfold Field.bindings at hb
    split at hb
    · next hk =>
      rw [List.mem_singleton.1 hb]
      exact ⟨rfl, hk⟩
    · cases hb

theorem append (hf : Wired bs fs) (hg : Wired cs gs) : Wired (bs ++ cs) (fs ++ gs) where
  governed f hm sizeField rule hk := by
    rcases List.mem_append.1 hm with hm | hm
    · rcases hf.governed f hm sizeField rule hk with hb | ⟨width, hd⟩
      · exact .inl (List.mem_append_left _ hb)
      · exact .inr ⟨width, hd.trans (List.sublist_append_left ..)⟩
    · rcases hg.governed f hm sizeField rule hk with hb | ⟨width, hd⟩
      · exact .inl (List.mem_append_right _ hb)
      · exact .inr ⟨width, hd.trans (List.sublist_append_right ..)⟩
  governs d hm width content rule hk := by
    rcases List.mem_append.1 hm with hm | hm
    · obtain ⟨f, hd, hn⟩ := hf.governs d hm width content rule hk
      exact ⟨f, hd.trans (List.sublist_append_left ..), hn⟩
    · obtain ⟨f, hd, hn⟩ := hg.governs d hm width content rule hk
      exact ⟨f, hd.trans (List.sublist_append_right ..), hn⟩
  awaited b hm := by
    rcases List.mem_append.1 hm with hm | hm
    · obtain ⟨f, hf, hn⟩ := hf.awaited b hm
      exact ⟨f, List.mem_append_left _ hf, hn⟩
    · obtain ⟨f, hf, hn⟩ := hg.awaited b hm
      exact ⟨f, List.mem_append_right _ hf, hn⟩

end Wired

/-! ### What stands before in a list -/

section Before

variable {α : Type} {d f : α} {pre post : List α}

theorem mem_of_pair_sublist_left (h : [d, f].Sublist (pre ++ f :: post))
    (hnd : (pre ++ f :: post).Nodup) : d ∈ pre := by
  have hf : f ∉ post := (List.nodup_cons.1 (List.nodup_append.1 hnd).2.1).1
  obtain ⟨front, back, heq, hfront, hback⟩ := List.sublist_append_iff.1 h
  cases front with
  | cons x front =>
    rw [List.cons_append, List.cons.injEq] at heq
    exact hfront.subset (heq.1 ▸ List.mem_cons_self)
  | nil =>
    cases heq
    cases hback with
    | cons _ hback => exact absurd (hback.subset (by simp)) hf
    | cons_cons _ hback => exact absurd (hback.subset (by simp)) hf

theorem mem_of_pair_sublist_right (h : [d, f].Sublist (pre ++ d :: post))
    (hnd : (pre ++ d :: post).Nodup) : f ∈ post := by
  have hd : d ∉ pre := fun hd => (List.nodup_append.1 hnd).2.2 d hd d List.mem_cons_self rfl
  obtain ⟨front, back, heq, hfront, hback⟩ := List.sublist_append_iff.1 h
  cases front with
  | cons x front =>
    rw [List.cons_append, List.cons.injEq] at heq
    exact absurd (hfront.subset (heq.1 ▸ List.mem_cons_self)) hd
  | nil =>
    cases heq
    cases hback with
    | cons _ hback => exact hback.subset (by simp)
    | cons_cons _ hback => exact hback.subset (by simp)

end Before

/-! ### Settling a binding -/

/-- The field as it is after a binding is settled: derived, if it is the size field. -/
def Binding.settle (b : Binding) (width : Width) (f : Field) : Field :=
  if f.name = b.sizeField then { f with kind := .derived width b.content b.rule } else f

@[simp] theorem Binding.settle_name (b : Binding) (width : Width) (f : Field) :
    (b.settle width f).name = f.name := by
  unfold settle
  split <;> rfl

/-- Whether a field of this kind can take up a size of the given width. -/
def FieldKind.Carries (kind : FieldKind) (width : Width) : Prop :=
  kind = .scalar width ∨ kind = .fixedBlob width.bytes

theorem FieldKind.Carries.governor? {kind : FieldKind} {width : Width} (h : kind.Carries width) :
    kind.governor? = none := by
  rcases h with rfl | rfl <;> rfl

theorem FieldKind.Carries.not_derived {kind : FieldKind} {width w : Width} {content : String}
    {rule : Derivation} (h : kind.Carries width) : kind ≠ .derived w content rule := by
  rcases h with rfl | rfl <;> exact nofun

theorem carrierWidth_eq_ok_iff {owner : String} {f : Field} {width : Width} :
    carrierWidth owner f = .ok width ↔ f.kind.Carries width := by
  unfold carrierWidth FieldKind.Carries
  constructor
  · intro h
    split at h
    · next hk =>
      cases h
      exact .inl hk
    · next size hk =>
      split at h
      · next hw =>
        cases h
        exact .inr (by rw [hk, Width.bytes_of_ofSize? hw])
      · cases h
    · cases h
    · cases h
  · rintro (hk | hk) <;> simp [hk]

/-- What it takes to settle a binding, and what comes of it. -/
theorem bindSize_eq_ok_iff {owner : String} {fields bound : List Field} {b : Binding} :
    bindSize owner fields b = .ok bound ↔
      ∃ carrier width,
        (fields.takeWhile (·.name ≠ b.content)).find? (·.name = b.sizeField) = some carrier ∧
          carrier.kind.Carries width ∧ bound = fields.map (b.settle width) := by
  unfold bindSize
  rw [bind_eq_ok_iff]
  constructor
  · rintro ⟨carrier, hc, h⟩
    obtain ⟨width, hw, h⟩ := bind_eq_ok_iff.1 h
    refine ⟨carrier, width, ?_, carrierWidth_eq_ok_iff.1 hw, (pure_eq_ok_iff.1 h).symm⟩
    unfold sizeCarrier at hc
    split at hc
    · next hf =>
      cases hc
      exact hf
    · split at hc <;> cases hc
  · rintro ⟨carrier, width, hc, hw, rfl⟩
    refine ⟨carrier, by rw [sizeCarrier, hc], ?_⟩
    rw [carrierWidth_eq_ok_iff.2 hw]
    rfl

/-- Of two fields with different names, the first that is looked for stands before the other. -/
theorem sublist_of_mem_takeWhile {fields : List Field} {d f : Field} {name : String}
    (hd : d ∈ fields.takeWhile (·.name ≠ name)) (hf : f ∈ fields) (hn : f.name = name) :
    [d, f].Sublist fields := by
  have hdrop : f ∈ fields.dropWhile (·.name ≠ name) := by
    rw [← List.takeWhile_append_dropWhile (p := (·.name ≠ name)) (l := fields)] at hf
    rcases List.mem_append.1 hf with hf | hf
    · exact absurd hn (by simpa using List.mem_takeWhile_imp hf)
    · exact hf
  have h := (List.singleton_sublist.2 hd).append (List.singleton_sublist.2 hdrop)
  rwa [List.takeWhile_append_dropWhile] at h

/-- What stands before a field is passed on the way to it. -/
theorem mem_takeWhile_of_pair_sublist {fields : List Field} {d f : Field}
    (hn : (fields.map (·.name)).Nodup) (h : [d, f].Sublist fields) :
    d ∈ fields.takeWhile (·.name ≠ f.name) := by
  obtain ⟨pre, post, rfl⟩ := List.append_of_mem (h.subset (by simp : f ∈ [d, f]))
  have hd : d ∈ pre := mem_of_pair_sublist_left h (hn.of_map _)
  rw [List.map_append, List.nodup_append] at hn
  rw [List.takeWhile_append_of_pos]
  · exact List.mem_append_left _ hd
  · intro g hg
    have := hn.2.2 g.name (List.mem_map_of_mem hg) f.name (by simp)
    simpa using this

section Settle

variable {fields : List Field} {b : Binding} {bs : List Binding} {carrier : Field} {width : Width}

/-- Settling a binding changes no field but the carrier. -/
theorem settle_eq_self_of_ne (hn : (fields.map (·.name)).Nodup) (hc : carrier ∈ fields)
    (hs : carrier.name = b.sizeField) {f : Field} (hf : f ∈ fields) (hne : f ≠ carrier) :
    b.settle width f = f := by
  unfold Binding.settle
  rw [if_neg]
  intro hname
  exact hne (List.inj_on_of_nodup_map hn hf hc (hname.trans hs.symm))

theorem settle_eq_self (hn : (fields.map (·.name)).Nodup) (hc : carrier ∈ fields)
    (hs : carrier.name = b.sizeField) {f : Field} (hf : f ∈ fields) (hne : f.kind ≠ carrier.kind) :
    b.settle width f = f :=
  settle_eq_self_of_ne hn hc hs hf fun heq => hne (congrArg Field.kind heq)

/-- Settling a binding leaves the others pending. -/
theorem Wired.settle (h : Wired (b :: bs) fields) (hn : (fields.map (·.name)).Nodup)
    (hc : carrier ∈ fields.takeWhile (·.name ≠ b.content)) (hs : carrier.name = b.sizeField)
    (hw : carrier.kind.Carries width) : Wired bs (fields.map (b.settle width)) := by
  have hmem : carrier ∈ fields := List.takeWhile_subset _ hc
  have hcarrier : b.settle width carrier = ⟨b.sizeField, .derived width b.content b.rule⟩ := by
    simp [Binding.settle, hs]
  -- the carrier is neither sized nor derived yet, so fields that are stay as they are
  have hgoverned : ∀ f ∈ fields, ∀ g, f.kind.governor? = some g → b.settle width f = f := by
    intro f hf g hg
    refine settle_eq_self hn hmem hs hf fun heq => ?_
    rw [heq, hw.governor?] at hg
    cases hg
  have hderived : ∀ d ∈ fields, ∀ w content rule, d.kind = .derived w content rule →
      b.settle width d = d := by
    intro d hd w content rule hk
    exact settle_eq_self hn hmem hs hd fun heq => hw.not_derived (heq.symm.trans hk)
  have hbefore : ∀ f ∈ fields, f.name = b.content → f.kind.governor? = some (b.sizeField, b.rule) →
      [⟨b.sizeField, .derived width b.content b.rule⟩, f].Sublist
        (fields.map (b.settle width)) := by
    intro f hf hname hk
    have := (sublist_of_mem_takeWhile hc hf hname).map (b.settle width)
    rwa [List.map_cons, List.map_singleton, hcarrier, hgoverned f hf _ hk] at this
  constructor
  case governed =>
    rintro f' hf' sizeField rule hk
    obtain ⟨f, hf, rfl⟩ := List.mem_map.1 hf'
    have heq : b.settle width f = f := by
      unfold Binding.settle at hk ⊢
      split
      · next hname => simp [hname, FieldKind.governor?] at hk
      · rfl
    rw [heq] at hk ⊢
    rcases h.governed f hf sizeField rule hk with hb | ⟨w, hd⟩
    · rcases List.mem_cons.1 hb with hb | hb
      -- the field waited for this binding, and has its size from now on
      · obtain rfl := hb
        exact .inr ⟨width, hbefore f hf rfl hk⟩
      · exact .inl hb
    · refine .inr ⟨w, ?_⟩
      have := hd.map (b.settle width)
      rwa [List.map_cons, List.map_singleton, heq,
        hderived _ (hd.subset List.mem_cons_self) _ _ _ rfl] at this
  case governs =>
    rintro d' hd' w content rule hk
    obtain ⟨d, hd, rfl⟩ := List.mem_map.1 hd'
    by_cases hname : d.name = b.sizeField
    · obtain rfl := List.inj_on_of_nodup_map hn hd hmem (hname.trans hs.symm)
      rw [hcarrier] at hk ⊢
      cases hk
      -- the field that waited for the binding is the one that its carrier describes
      obtain ⟨f, hf, hfn, hfk⟩ := h.awaited b List.mem_cons_self
      exact ⟨f, hbefore f hf hfn hfk, hfn, hfk⟩
    · have heq : b.settle width d = d := if_neg hname
      rw [heq] at hk ⊢
      obtain ⟨f, hdf, hfn, hfk⟩ := h.governs d hd w content rule hk
      have := hdf.map (b.settle width)
      rw [List.map_cons, List.map_singleton, heq,
        hgoverned f (hdf.subset (by simp)) _ hfk] at this
      exact ⟨f, this, hfn, hfk⟩
  case awaited =>
    intro b' hb'
    obtain ⟨f, hf, hfn, hfk⟩ := h.awaited b' (List.mem_cons_of_mem _ hb')
    exact ⟨f, List.mem_map.2 ⟨f, hf, hgoverned f hf _ hfk⟩, hfn, hfk⟩

end Settle

/-- Settling all bindings keeps the names, makes size fields derived and changes nothing else, and
leaves nothing pending. -/
theorem wired_of_foldlM {owner : String} {bs : List Binding} {fields bound : List Field}
    (h : bs.foldlM (bindSize owner) fields = .ok bound) (hw : Wired bs fields)
    (hn : (fields.map (·.name)).Nodup) :
    Wired [] bound ∧ bound.map (·.name) = fields.map (·.name) ∧
      ∀ f ∈ bound, f ∈ fields ∨ ∃ width content rule, f.kind = .derived width content rule := by
  induction bs generalizing fields with
  | nil =>
    cases h
    exact ⟨hw, rfl, fun f hf => .inl hf⟩
  | cons b bs ih =>
    rw [List.foldlM_cons] at h
    obtain ⟨fields₁, h₁, h⟩ := bind_eq_ok_iff.1 h
    obtain ⟨carrier, width, hc, hk, rfl⟩ := bindSize_eq_ok_iff.1 h₁
    have hs : carrier.name = b.sizeField := by simpa using List.find?_some hc
    have hnames : (fields.map (b.settle width)).map (·.name) = fields.map (·.name) := by
      simp
    obtain ⟨hwired, hsame, hmem⟩ :=
      ih h (hw.settle hn (List.mem_of_find?_eq_some hc) hs hk) (hnames ▸ hn)
    refine ⟨hwired, hsame.trans hnames, fun f hf => ?_⟩
    rcases hmem f hf with hf | hf
    · obtain ⟨g, hg, rfl⟩ := List.mem_map.1 hf
      unfold Binding.settle
      split
      · exact .inr ⟨width, b.content, b.rule, rfl⟩
      · exact .inl hg
    · exact .inr hf

/-- No field has a name that is taken. -/
theorem firstTaken?_eq_none_iff {taken : List String} {fields : List Field} :
    firstTaken? taken fields = none ↔
      (fields.map (·.name)).Nodup ∧ ∀ f ∈ fields, f.name ∉ taken := by
  induction fields generalizing taken with
  | nil => simp [firstTaken?]
  | cons f rest ih =>
    by_cases hf : f.name ∈ taken
    · simp [firstTaken?, hf]
    · simp only [firstTaken?, hf, if_false, ih, List.map_cons, List.nodup_cons, List.mem_cons,
        List.mem_map, not_or, forall_eq_or_imp, not_false_eq_true, true_and]
      constructor
      · rintro ⟨hn, hrest⟩
        refine ⟨⟨?_, hn⟩, fun g hg => (hrest g hg).2⟩
        rintro ⟨g, hg, hname⟩
        exact (hrest g hg).1 hname
      · rintro ⟨⟨hnew, hn⟩, hrest⟩
        exact ⟨hn, fun g hg => ⟨fun hname => hnew ⟨g, hg, hname⟩, hrest g hg⟩⟩

end WireSchema
