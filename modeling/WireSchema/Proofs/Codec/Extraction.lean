import WireSchema.Proofs.Codec.Length
import WireSchema.Proofs.Codec.Nesting
import WireSchema.Proofs.Codec.Parts
import WireSchema.Proofs.Resolve.Extraction

/-!
# The wire layout of a structure in place

Whether the fields of a structure stand in place or in a field that holds the structure makes no
difference on the wire. The values differ: what is content of the one structure here is content of a
nested one there. `Record.nest` moves it.

* `Extracted.structure?_eq`: both are read from the same bytes.
* `Extracted.write_eq_ok_iff`: both are written to the same bytes.
* `Extracted.fixedSize_eq`: both have the same fixed size, or none.
* `sameWire_of_resolve`: so the schemas of two documents that differ in this have the same wire
  layout.
-/

namespace WireSchema

/-! ### Moving content into a nested structure -/

namespace Record

/-- The record with the content of the fields `inner` moved into a nested structure under `name`,
which comes after the fields `before`. -/
def nest (before inner : List String) (name : String) (r : Record) : Record :=
  (r.filter fun p => p.1 ∈ before) ++ (name, .record (r.filter fun p => p.1 ∈ inner)) ::
    r.filter fun p => p.1 ∉ before ∧ p.1 ∉ inner ∧ p.1 ≠ name

theorem get?_append (r others : Record) (name : String) :
    get? (r ++ others) name = (get? r name).or (get? others name) := by
  induction r with
  | nil => rfl
  | cons p rest ih =>
    obtain ⟨n, v⟩ := p
    by_cases h : n = name <;> simp [get?, h, ih]

theorem get?_filter (r : Record) (keep : String → Bool) (name : String) :
    get? (r.filter fun p => keep p.1) name = if keep name then get? r name else none := by
  induction r with
  | nil => simp
  | cons p rest ih =>
    obtain ⟨n, v⟩ := p
    by_cases hkeep : keep n
    · by_cases h : n = name
      · subst h
        simp [get?, hkeep]
      · simp [get?, hkeep, h, ih]
    · by_cases h : n = name
      · subst h
        simp [hkeep, ih]
      · simp [get?, hkeep, h, ih]

variable {before inner : List String} {name field : String} {r : Record}

/-- The fields that stay keep their content. -/
theorem get?_nest_of_ne (hne : field ≠ name) (h : field ∈ before ∨ field ∉ inner) :
    get? (nest before inner name r) field = get? r field := by
  have hbefore := get?_filter r (fun n => n ∈ before) field
  have hafter := get?_filter r (fun n => n ∉ before ∧ n ∉ inner ∧ n ≠ name) field
  rw [nest, get?_append, hbefore, get?, if_neg hne.symm, hafter]
  by_cases hb : field ∈ before
  · simp [hb]
  · simp [hb, h.resolve_left hb, hne]

/-- The nested structure is found under its name. -/
theorem get?_nest_self (h : name ∉ before) :
    get? (nest before inner name r) name = some (.record (r.filter fun p => p.1 ∈ inner)) := by
  have hbefore := get?_filter r (fun n => n ∈ before) name
  rw [nest, get?_append, hbefore]
  simp [h, get?]

/-- The content that is moved is found in the nested structure. -/
theorem get?_filter_mem (h : field ∈ inner) :
    get? (r.filter fun p => p.1 ∈ inner) field = get? r field := by
  rw [get?_filter r (fun n => n ∈ inner) field]
  simp [h]

/-- Where the content of the fields stands in the order of the layout, it stays in that order. -/
theorem nest_append {front middle back : Record} (hfront : ∀ p ∈ front, p.1 ∈ before ∧ p.1 ∉ inner)
    (hmiddle : ∀ p ∈ middle, p.1 ∉ before ∧ p.1 ∈ inner)
    (hback : ∀ p ∈ back, p.1 ∉ before ∧ p.1 ∉ inner ∧ p.1 ≠ name) :
    nest before inner name (front ++ (middle ++ back)) =
      front ++ (name, .record middle) :: back := by
  have hstay : (front ++ (middle ++ back)).filter (fun p => p.1 ∈ before) = front := by
    rw [List.filter_append, List.filter_append,
      List.filter_eq_self.2 fun p hp => decide_eq_true (hfront p hp).1,
      List.filter_eq_nil_iff.2 fun p hp => by simp [(hmiddle p hp).1],
      List.filter_eq_nil_iff.2 fun p hp => by simp [(hback p hp).1]]
    simp
  have hmove : (front ++ (middle ++ back)).filter (fun p => p.1 ∈ inner) = middle := by
    rw [List.filter_append, List.filter_append,
      List.filter_eq_nil_iff.2 fun p hp => by simp [(hfront p hp).2],
      List.filter_eq_self.2 fun p hp => decide_eq_true (hmiddle p hp).2,
      List.filter_eq_nil_iff.2 fun p hp => by simp [(hback p hp).2.1]]
    simp
  have hrest : (front ++ (middle ++ back)).filter
      (fun p => p.1 ∉ before ∧ p.1 ∉ inner ∧ p.1 ≠ name) = back := by
    rw [List.filter_append, List.filter_append,
      List.filter_eq_nil_iff.2 fun p hp => by simp [(hfront p hp).1],
      List.filter_eq_nil_iff.2 fun p hp => by simp [(hmiddle p hp).2],
      List.filter_eq_self.2 fun p hp => decide_eq_true (hback p hp)]
    simp
  rw [nest, hstay, hmove, hrest]

end Record

/-! ### Fixed sizes -/

/-- A field with the fixed size of some fields takes as many bytes as they do. -/
theorem fixedSizeOf_around {below : List Structure} {front inner back : List Field} {e : Field}
    (he : e.kind.fixedSize? below = fixedSizeOf below inner) :
    fixedSizeOf below (front ++ e :: back) = fixedSizeOf below (front ++ inner ++ back) := by
  simp only [fixedSizeOf, List.mapM_append, List.mapM_cons, he]
  cases front.mapM (·.kind.fixedSize? below) with
  | none => rfl
  | some sizes =>
    cases inner.mapM (·.kind.fixedSize? below) with
    | none => rfl
    | some sizes' =>
      cases back.mapM (·.kind.fixedSize? below) with
      | none => cases hword : word? sizes'.sum <;> simp [hword]
      | some sizes'' =>
        by_cases hlt : sizes'.sum < 2 ^ 64
        · have hword : word? sizes'.sum = some sizes'.sum := if_pos hlt
          simp [hword]
        -- sizes that add up to more than a word do so together with others
        · have hword : word? sizes'.sum = none := if_neg hlt
          have hall : word? (sizes.sum + (sizes'.sum + sizes''.sum)) = none :=
            if_neg (by omega)
          simp [hword, hall]

/-! ### Names -/

namespace Structure

/-- The names of the content fields. -/
def contentNames (s : Structure) : List String := (s.fields.filter (·.isContent)).map (·.name)

/-- The names of the fields that stand before the one of the given name. -/
def namesBefore (s : Structure) (name : String) : List String :=
  (s.fields.map (·.name)).takeWhile (· ≠ name)

end Structure

namespace Extracted

variable {below : List Structure} {name : String} {front back : List Field}
  {inner flat deep : Structure} (h : Extracted below name front back inner flat deep)
include h

theorem nodup_flat :
    (front.map (·.name) ++ (inner.fields.map (·.name) ++ back.map (·.name))).Nodup := by
  have hn := h.flat_sound.distinct
  rwa [h.flat_eq, List.map_append, List.map_append, List.append_assoc] at hn

theorem nodup_deep : (front.map (·.name) ++ name :: back.map (·.name)).Nodup := by
  have hn := h.deep_sound.distinct
  rwa [h.deep_eq, List.map_append, List.map_cons] at hn

theorem inner_sound : inner.Sound below :=
  h.layered.sound (mem_of_findStructure? h.found)

/-- The field between stands before none of the first fields. -/
theorem not_mem_front_self : name ∉ front.map (·.name) := fun hmem =>
  (List.nodup_append.1 h.nodup_deep).2.2 name hmem name List.mem_cons_self rfl

theorem namesBefore_eq : deep.namesBefore name = front.map (·.name) := by
  have hfront : ∀ n ∈ front.map (·.name), decide (n ≠ name) = true := fun n hn =>
    decide_eq_true (ne_of_mem_of_not_mem hn h.not_mem_front_self)
  rw [Structure.namesBefore, h.deep_eq, List.map_append, List.map_cons,
    List.takeWhile_append_of_pos hfront]
  simp

/-- The names of the outer fields are not that of the field between them. -/
theorem name_ne {f : Field} (hf : f ∈ front ∨ f ∈ back) : f.name ≠ name := by
  rcases hf with hf | hf
  · exact ne_of_mem_of_not_mem (List.mem_map_of_mem hf) h.not_mem_front_self
  · have hback := (List.nodup_cons.1 (List.nodup_append.1 h.nodup_deep).2.1).1
    exact ne_of_mem_of_not_mem (List.mem_map_of_mem hf) hback

theorem front_ne {f g : Field} (hf : f ∈ front) (hg : g ∈ inner.fields ∨ g ∈ back) : f.name ≠ g.name := by
  refine (List.nodup_append.1 h.nodup_flat).2.2 _ (List.mem_map_of_mem hf) _ ?_
  rcases hg with hg | hg
  · exact List.mem_append_left _ (List.mem_map_of_mem hg)
  · exact List.mem_append_right _ (List.mem_map_of_mem hg)

theorem inner_ne {f g : Field} (hf : f ∈ inner.fields) (hg : g ∈ back) : f.name ≠ g.name :=
  (List.nodup_append.1 (List.nodup_append.1 h.nodup_flat).2.1).2.2 _ (List.mem_map_of_mem hf) _
    (List.mem_map_of_mem hg)

theorem not_mem_front {g : Field} (hg : g ∈ inner.fields ∨ g ∈ back) : g.name ∉ front.map (·.name) := by
  intro hmem
  obtain ⟨f, hf, hname⟩ := List.mem_map.1 hmem
  exact h.front_ne hf hg hname

/-- The content of the outer fields is not moved. -/
theorem not_mem_contentNames {f : Field} (hf : f ∈ front ∨ f ∈ back) : f.name ∉ inner.contentNames := by
  intro hmem
  obtain ⟨g, hg, hname⟩ := List.mem_map.1 hmem
  have hg : g ∈ inner.fields := List.mem_of_mem_filter hg
  rcases hf with hf | hf
  · exact h.front_ne hf (.inl hg) hname.symm
  · exact h.inner_ne hg hf hname

/-! ### Reading -/

section Reading

variable {nested : String → Reader Record} {limits : Limits}

/-- The sizes of the first fields are among them. -/
theorem sameSizes_front : Decode.SameSizes front [] [] := by
  rintro pre f post rfl sizeField rule hk
  have hsplit : flat.fields = pre ++ f :: (post ++ inner.fields ++ back) := by
    rw [h.flat_eq]
    simp
  obtain ⟨width, hd⟩ := h.flat_sound.governor_mem hsplit hk
  exact .inl ⟨_, hd, rfl, Bool.false_ne_true⟩

/-- The sizes of the inner fields are among them. -/
theorem sameSizes_inner (frame : Frame) : Decode.SameSizes inner.fields frame [] := by
  intro pre f post hsplit sizeField rule hk
  obtain ⟨width, hd⟩ := h.inner_sound.governor_mem hsplit hk
  exact .inl ⟨_, hd, rfl, Bool.false_ne_true⟩

/-- The sizes of the last fields are among them and the first ones, so that the derived fields of
the inner structure do not matter. -/
theorem sameSizes_back {added added' : Frame}
    (hfront : added.map Prod.fst = ((front.filter (!·.isContent)).map (·.name)).reverse)
    (hinner : added'.map Prod.fst =
      ((inner.fields.filter (!·.isContent)).map (·.name)).reverse) :
    Decode.SameSizes back (added' ++ (added ++ [])) (added ++ []) := by
  rintro pre f post rfl sizeField rule hk
  have hsplit : deep.fields = (front ++ ⟨name, .embedded inner.name⟩ :: pre) ++ f :: post := by
    rw [h.deep_eq]
    simp
  obtain ⟨width, hd⟩ := h.deep_sound.governor_mem hsplit hk
  rcases List.mem_append.1 hd with hd | hd
  · have hkept : sizeField ∈ added.map Prod.fst := by
      rw [hfront, List.mem_reverse]
      exact List.mem_map.2 ⟨_, List.mem_filter.2 ⟨hd, rfl⟩, rfl⟩
    have hother : sizeField ∉ added'.map Prod.fst := by
      rw [hinner, List.mem_reverse]
      intro hmem
      obtain ⟨g, hg, hname⟩ := List.mem_map.1 hmem
      exact h.front_ne hd (.inl (List.mem_of_mem_filter hg)) hname.symm
    obtain ⟨n, hn⟩ := exists_lookup_eq_some hkept
    refine .inr ⟨n, ?_, ?_⟩
    · rw [List.lookup_append, lookup_eq_none_iff.2 hother, List.append_nil, hn, Option.none_or]
    · rw [List.append_nil, hn]
  · rcases List.mem_cons.1 hd with hd | hd
    · cases hd
    · exact .inl ⟨_, hd, rfl, Bool.false_ne_true⟩

/-- What was read as content of the three parts is that of the structure with the field between. -/
theorem nest_of_names {r₁ r₂ r₃ : Record}
    (h₁ : r₁.names = (front.filter (·.isContent)).map (·.name))
    (h₂ : r₂.names = (inner.fields.filter (·.isContent)).map (·.name))
    (h₃ : r₃.names = (back.filter (·.isContent)).map (·.name)) :
    Record.nest (front.map (·.name)) inner.contentNames name (r₁ ++ (r₂ ++ r₃)) =
      r₁ ++ (name, .record r₂) :: r₃ := by
  refine Record.nest_append (fun p hp => ?_) (fun p hp => ?_) fun p hp => ?_
  · obtain ⟨f, hf, -, hname⟩ := Decode.exists_content_of_names h₁ hp
    rw [← hname]
    exact ⟨List.mem_map_of_mem hf, h.not_mem_contentNames (.inl hf)⟩
  · obtain ⟨f, hf, hcontent, hname⟩ := Decode.exists_content_of_names h₂ hp
    rw [← hname]
    exact ⟨h.not_mem_front (.inl hf), List.mem_map_of_mem (List.mem_filter.2 ⟨hf, hcontent⟩)⟩
  · obtain ⟨f, hf, -, hname⟩ := Decode.exists_content_of_names h₃ hp
    rw [← hname]
    exact ⟨h.not_mem_front (.inr hf), h.not_mem_contentNames (.inr hf), h.name_ne (.inr hf)⟩

/-- Both structures are read from the same bytes, or fail with the same error. -/
theorem structure?_eq (hn : nested inner.name = Decode.structure? limits nested inner) :
    Decode.structure? limits nested deep = do
      return Record.nest (front.map (·.name)) inner.contentNames name
        (← Decode.structure? limits nested flat) := by
  have hfront : Decode.part nested limits flat front [] = Decode.part nested limits deep front [] :=
    Decode.part_congr h.sameSizes_front
  have hinner : ∀ frame, Decode.part nested limits flat inner.fields frame =
      Decode.part nested limits inner inner.fields [] := fun frame =>
    Decode.part_congr (h.sameSizes_inner frame)
  have hbetween : (⟨name, .embedded inner.name⟩ : Field).isContent := rfl
  funext c
  simp only [Decode.structure?, h.deep_eq, h.flat_eq, List.append_assoc, Decode.fields_append,
    Decode.fields_content hbetween, Decode.content, hn, Decode.fields_eq_part inner.fields, hfront,
    hinner, bind_assoc, pure_bind]
  refine Reader.bind_congr fun first c₁ h₁ => ?_
  refine Reader.bind_congr fun second c₂ h₂ => ?_
  obtain ⟨r₁, added₁⟩ := first
  obtain ⟨r₂, added₂⟩ := second
  obtain ⟨h₁, hkept⟩ := Decode.names_of_part h₁
  obtain ⟨h₂, hkept'⟩ := Decode.names_of_part h₂
  have hback : Decode.fields nested limits flat back (added₂ ++ (added₁ ++ [])) =
      Decode.fields nested limits deep back (added₁ ++ []) :=
    Decode.fields_congr_frame (h.sameSizes_back hkept hkept')
  simp only [hback]
  refine Reader.bind_congr fun r₃ c₃ h₃ => ?_
  rw [h.nest_of_names h₁ h₂ (Decode.names_of_fields h₃)]

end Reading

/-! ### Writing -/

section Writing

variable {nested : String → Encoder} {r : Record} {bs : Bytes}

/-- The outer fields keep their content. -/
theorem get?_nest {f : Field} (hf : f ∈ front ∨ f ∈ back) :
    (r.nest (front.map (·.name)) inner.contentNames name).get? f.name = r.get? f.name :=
  Record.get?_nest_of_ne (h.name_ne hf) (.inr (h.not_mem_contentNames hf))

/-- The outer fields are fields of both structures. -/
theorem mem_of_outer {f : Field} (hf : f ∈ front ∨ f ∈ back) : f ∈ flat.fields ∧ f ∈ deep.fields := by
  rw [h.flat_eq, h.deep_eq]
  rcases hf with hf | hf <;> simp [hf]

/-- The outer fields are written the same in both structures. -/
theorem shared_outer {f : Field} (hf : f ∈ front ∨ f ∈ back) :
    Encode.Shared deep flat (r.nest (front.map (·.name)) inner.contentNames name) r f where
  get?_eq _ := h.get?_nest hf
  describes width content rule hk := by
    have hmem := (h.mem_of_outer hf).2
    obtain ⟨g, hfg, hname, hgov⟩ := h.deep_sound.wired.governs f hmem width content rule hk
    -- the field that is described is sized by a sibling, so it is not the one between
    have hg : g ∈ deep.fields := hfg.subset (by simp)
    have houter : g ∈ front ∨ g ∈ back := by
      rw [h.deep_eq] at hg
      rcases List.mem_append.1 hg with hg | hg
      · exact .inl hg
      · rcases List.mem_cons.1 hg with rfl | hg
        · cases hgov
        · exact .inr hg
    exact ⟨g, hg, (h.mem_of_outer houter).1, hname, h.get?_nest houter⟩

/-- The inner fields are written in place as they are in the inner structure. -/
theorem shared_inner {f : Field} (hf : f ∈ inner.fields) :
    Encode.Shared inner flat (r.filter fun p => p.1 ∈ inner.contentNames) r f := by
  have hget : ∀ g ∈ inner.fields, g.isContent →
      Record.get? (r.filter fun p => p.1 ∈ inner.contentNames) g.name = r.get? g.name :=
    fun g hg hcontent =>
      Record.get?_filter_mem (List.mem_map_of_mem (List.mem_filter.2 ⟨hg, hcontent⟩))
  have hmem : ∀ g ∈ inner.fields, g ∈ flat.fields := by
    intro g hg
    rw [h.flat_eq]
    simp [hg]
  constructor
  · exact hget f hf
  · intro width content rule hk
    obtain ⟨g, hfg, hname, hgov⟩ := h.inner_sound.wired.governs f hf width content rule hk
    have hg : g ∈ inner.fields := hfg.subset (by simp)
    exact ⟨g, hg, hmem g hg, hname, hget g hg (Field.isContent_of_governor? hgov)⟩

/-- The field that holds the inner structure is written as the inner fields are in place. -/
theorem fieldBytes_between (hn : (nested inner.name).write = Encode.write nested inner) :
    Encode.fieldBytes nested deep (r.nest (front.map (·.name)) inner.contentNames name)
        ⟨name, .embedded inner.name⟩ = .ok bs ↔
      Encode.part nested flat r inner.fields = .ok bs := by
  have hget : Record.get? (r.nest _ inner.contentNames name) name = _ :=
    Record.get?_nest_self h.not_mem_front_self
  rw [Encode.fieldBytes_embedded rfl, hget, hn,
    ← Encode.part_eq_ok_congr h.inner_sound h.flat_sound fun f hf => h.shared_inner hf]
  simp [Encode.recordContent, Encode.write_eq_part]

/-- Both structures are written to the same bytes. -/
theorem write_eq_ok_iff (hn : (nested inner.name).write = Encode.write nested inner) :
    Encode.write nested deep (r.nest (front.map (·.name)) inner.contentNames name) = .ok bs ↔
      Encode.write nested flat r = .ok bs := by
  have hfront : ∀ bs, Encode.part nested deep (r.nest _ inner.contentNames name) front = .ok bs ↔
      Encode.part nested flat r front = .ok bs := fun _ =>
    Encode.part_eq_ok_congr h.deep_sound h.flat_sound fun f hf => h.shared_outer (.inl hf)
  have hback : ∀ bs, Encode.part nested deep (r.nest _ inner.contentNames name) back = .ok bs ↔
      Encode.part nested flat r back = .ok bs := fun _ =>
    Encode.part_eq_ok_congr h.deep_sound h.flat_sound fun f hf => h.shared_outer (.inr hf)
  have hbetween : ∀ bs, Encode.fieldBytes nested deep (r.nest _ inner.contentNames name)
      ⟨name, .embedded inner.name⟩ = .ok bs ↔ Encode.part nested flat r inner.fields = .ok bs :=
    fun _ => h.fieldBytes_between hn
  rw [Encode.write_eq_part, Encode.write_eq_part, h.deep_eq, h.flat_eq, List.append_assoc]
  simp only [Encode.part_append, Encode.part_cons, bind_eq_ok_iff, hfront, hback, hbetween]

end Writing

/-- Both structures have the same fixed size, or none. -/
theorem fixedSize_eq : deep.fixedSize = flat.fixedSize := by
  rw [h.deep_sound.fixedSize_eq, h.flat_sound.fixedSize_eq, h.deep_eq, h.flat_eq]
  refine fixedSizeOf_around ?_
  rw [FieldKind.fixedSize?, Element.fixedSize?, h.found, ← h.inner_sound.fixedSize_eq]
  rfl

end Extracted

/-! ### Whole schemas -/

/-- The structure `name` has the same wire layout in two schemas, where `move` takes its values in
the one to its values in the other: the same values are encoded, to the same bytes, the same bytes
are read, and the fixed size is the same. -/
structure Schema.SameWire (schema schema' : Schema) (name : String) (move : Record → Record) :
    Prop where
  fixedSize_eq : (schema'.structure? name).map (·.fixedSize) =
    (schema.structure? name).map (·.fixedSize)
  encode_iff : ∀ r bs, schema.encode name r = .ok bs ↔ schema'.encode name (move r) = .ok bs
  read_eq : ∀ limits, schema'.read limits name = do return move (← schema.read limits name)
  decode_eq : ∀ limits input,
    schema'.decode limits name input = (schema.decode limits name input).map move

/-- What is extracted has the same wire layout. -/
theorem Extracted.sameWire {below : List Structure} {name owner : String} {front back : List Field}
    {inner flat deep : Structure} {schema schema' : Schema}
    (h : Extracted below name front back inner flat deep)
    (hl : Layered schema.structures) (hl' : Layered schema'.structures)
    (hflat : schema.structure? owner = some flat) (hdeep : schema'.structure? owner = some deep)
    (hgrown : ∀ type s, findStructure? below type = some s →
      schema.structure? type = some s ∧ schema'.structure? type = some s) :
    schema.SameWire schema' owner
      (Record.nest (deep.namesBefore name) inner.contentNames name) := by
  have hread : ∀ limits, schema'.read limits owner = do
      return Record.nest (deep.namesBefore name) inner.contentNames name
        (← schema.read limits owner) := by
    intro limits
    have hlocal := Decode.local_structure? limits
    rw [Schema.read, Schema.read,
      hl.interpret_of_sound _ _ h.layered hlocal (fun t s hs => (hgrown t s hs).1) hflat
        h.flat_sound,
      hl'.interpret_of_sound _ _ h.layered hlocal (fun t s hs => (hgrown t s hs).2) hdeep
        h.deep_sound, h.namesBefore_eq]
    exact h.structure?_eq (h.layered.interpret_of_find _ _ hlocal h.found)
  refine ⟨?_, ?_, hread, ?_⟩
  · rw [hflat, hdeep, Option.map_some, Option.map_some, h.fixedSize_eq]
  · intro r bs
    have hlocal := Encode.local_encoder
    rw [Schema.encode_eq_ok_iff hl, Schema.encode_eq_ok_iff hl', Schema.write, Schema.write,
      Schema.encoder, Schema.encoder,
      hl.interpret_of_sound _ _ h.layered hlocal (fun t s hs => (hgrown t s hs).1) hflat
        h.flat_sound,
      hl'.interpret_of_sound _ _ h.layered hlocal (fun t s hs => (hgrown t s hs).2) hdeep
        h.deep_sound, h.namesBefore_eq]
    have hinner := h.layered.interpret_of_find Encoder.unknown Encode.encoder hlocal h.found
    exact and_congr_left' (h.write_eq_ok_iff (congrArg Encoder.write hinner)).symm
  · intro limits input
    rw [Schema.decode, hread limits, Reader.decode_map]
    rfl

/-- Let a document put a structure inline, and let another keep it in a field instead, both being
accepted. Then the structure that they do this in has the same wire layout in both, and its values
differ in that the content of the inner structure is nested. -/
theorem sameWire_of_resolve {d : Document} {schema schema' : Schema} {owner name : String}
    {pre post : List Attribute} {a : Attribute}
    (hlayout : d.layout? owner = some (pre ++ a :: post)) (ha : a.disposition = some .inline)
    (h : Schema.resolve d = .ok schema)
    (h' : Schema.resolve (d.insert owner (.struct (pre ++ .named name a.type :: post))) =
      .ok schema') :
    ∃ inner deep, schema.structure? a.type = some inner ∧ schema'.structure? owner = some deep ∧
      schema.SameWire schema' owner
        (Record.nest (deep.namesBefore name) inner.contentNames name) := by
  obtain ⟨below, front, back, inner, flat, deep, hex, htype, hflat, hdeep, hgrown⟩ :=
    exists_extracted hlayout ha h h'
  refine ⟨inner, deep, ?_, hdeep, ?_⟩
  · rw [← htype]
    exact (hgrown _ _ hex.found).1
  · exact hex.sameWire (layered_of_resolve h) (layered_of_resolve h') hflat hdeep hgrown

/-! ### An example -/

/-- Letters: a text with a length of its own goes inline between a count and the words counted. -/
def letterDocument : Document :=
  .ofList [
    ("word", .byte 2 (some .unsigned)),
    ("Text", .struct [
      .named "length" "word",
      (Attribute.named "content" "byte").withSize (.field "length")]),
    ("Letter", .struct [
      .named "count" "word",
      .inlined "Text",
      (Attribute.named "words" "word").withSize (.field "count")])]

/-- The structure of texts. -/
def textStructure : Structure where
  name := "Text"
  fields := [
    ⟨"length", .derived .two "content" .byteLength⟩,
    ⟨"content", .variableBlob "length"⟩]
  constants := []
  fixedSize := none
  minSize := 2

/-- The structure of letters, with the fields between the count and the words. -/
def letterStructure (between : List Field) : Structure where
  name := "Letter"
  fields := ⟨"count", .derived .two "words" .itemCount⟩ :: between ++
    [⟨"words", .repeated (.scalar .two) (.counted "count")⟩]
  constants := []
  fixedSize := none
  minSize := 4

/-- The schema of letters with a text in place. -/
def letterSchema : Schema := ⟨[letterStructure textStructure.fields, textStructure], []⟩

/-- The schema of letters with a text in a field. -/
def embeddedLetterSchema : Schema :=
  ⟨[letterStructure [⟨"text", .embedded "Text"⟩], textStructure], []⟩

/-- A letter, whose fields were not assigned in the order of the layout. -/
def letter : Record := [("words", .list [.uint 7, .uint 8]), ("content", .bytes [1, 2, 3])]

theorem resolve_letterDocument : Schema.resolve letterDocument = .ok letterSchema := by
  decide +kernel

theorem resolve_letterDocument_insert :
    Schema.resolve (letterDocument.insert "Letter" (.struct [
      .named "count" "word",
      .named "text" "Text",
      (Attribute.named "words" "word").withSize (.field "count")])) =
        .ok embeddedLetterSchema := by
  decide +kernel

/-- A letter is written to the same bytes with its text in a field. -/
theorem encode_embeddedLetter :
    letterSchema.encode "Letter" letter = .ok [2, 0, 3, 0, 1, 2, 3, 7, 0, 8, 0] ∧
      embeddedLetterSchema.encode "Letter" (letter.nest ["count"] ["content"] "text") =
        .ok [2, 0, 3, 0, 1, 2, 3, 7, 0, 8, 0] := by
  have hletter : letterSchema.encode "Letter" letter = .ok [2, 0, 3, 0, 1, 2, 3, 7, 0, 8, 0] := rfl
  have hlayout : letterDocument.layout? "Letter" = some ([.named "count" "word"] ++
      .inlined "Text" :: [(Attribute.named "words" "word").withSize (.field "count")]) := rfl
  obtain ⟨inner, deep, ⟨⟩, ⟨⟩, hsame⟩ :=
    sameWire_of_resolve hlayout rfl resolve_letterDocument resolve_letterDocument_insert
  exact ⟨hletter, (hsame.encode_iff letter _).1 hletter⟩

end WireSchema
