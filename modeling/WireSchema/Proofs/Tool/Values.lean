import WireSchema.ValueJson
import WireSchema.Proofs.Codec.Reencode
import WireSchema.Proofs.Json.Parsing

/-!
# Values as JSON, and back

The JSON that is shown for a value that was read is taken for that value again: its keys are the
content fields of its structure, its numbers are numbers, and its hexadecimal texts stand for the
bytes that were read.

* `Value.legible_toJson`: what is shown can be printed and read as text.
* `OfJson.Recovers`: values are taken back from what is shown for them. It is carried from the items
  to the groups, from the fields to the structures, and from each layer of a schema to the next
  (`Layered.recovers`).
-/

namespace WireSchema

/-! ### Members of objects -/

section Members

variable {members : List (String × Json)} {name : String} {v : Json}

theorem Json.mem_of_member? (h : Json.member? members name = some v) : (name, v) ∈ members := by
  obtain ⟨before, after, heq, -⟩ := List.lookup_eq_some_iff.1 h
  have hmem : (name, v) ∈ members.reverse := by
    rw [heq]
    simp
  exact List.mem_reverse.1 hmem

/-- Without repetitions it does not matter that the last member counts. -/
theorem Json.member?_of_mem (hnodup : (members.map Prod.fst).Nodup) (h : (name, v) ∈ members) :
    Json.member? members name = some v := by
  obtain ⟨before, after, rfl⟩ := List.append_of_mem h
  rw [List.map_append, List.map_cons] at hnodup
  have hafter := (List.nodup_cons.1 (List.nodup_append.1 hnodup).2.1).1
  refine List.lookup_eq_some_iff.2 ⟨after.reverse, before.reverse, by simp, ?_⟩
  intro p hp
  rw [bne_iff_ne]
  intro hname
  refine hafter (List.mem_map.2 ⟨p, List.mem_reverse.1 hp, hname.symm⟩)

end Members

/-! ### What is shown -/

namespace Value

theorem membersOf_eq_map (r : Record) : membersOf r = r.map fun p => (p.1, p.2.toJson) := by
  induction r with
  | nil => rfl
  | cons p rest ih =>
    unfold membersOf
    rw [List.map_cons, ih]

theorem itemsOf_eq_map (items : List Value) : itemsOf items = items.map toJson := by
  induction items with
  | nil => rfl
  | cons v rest ih =>
    unfold itemsOf
    rw [List.map_cons, ih]

open Json (Token) in
mutual

/-- What is shown for a value can be printed: its only numbers are machine words. -/
theorem legible_toJson (v : Value) : ∀ t ∈ v.toJson.tokens, t.Legible := by
  cases v with
  | uint n =>
    intro t ht
    rw [List.mem_singleton.1 ht]
    exact Token.isWord_uint n
  | bytes data =>
    intro t ht
    rw [List.mem_singleton.1 ht]
    trivial
  | record fields =>
    cases fields with
    | nil =>
      intro t ht
      simp only [toJson, membersOf, Json.tokens, List.mem_cons, List.not_mem_nil, or_false] at ht
      rcases ht with rfl | rfl <;> trivial
    | cons p rest =>
      obtain ⟨name, v⟩ := p
      intro t ht
      simp only [toJson, membersOf, Json.tokens, List.mem_cons, List.mem_append] at ht
      rcases ht with rfl | rfl | rfl | ht | ht
      · trivial
      · trivial
      · trivial
      · exact legible_toJson v t ht
      · exact legible_membersOf rest t ht
  | list items =>
    cases items with
    | nil =>
      intro t ht
      simp only [toJson, itemsOf, Json.tokens, List.mem_cons, List.not_mem_nil, or_false] at ht
      rcases ht with rfl | rfl <;> trivial
    | cons v rest =>
      intro t ht
      simp only [toJson, itemsOf, Json.tokens, List.mem_cons, List.mem_append] at ht
      rcases ht with rfl | ht | ht
      · trivial
      · exact legible_toJson v t ht
      · exact legible_itemsOf rest t ht

theorem legible_membersOf (r : List (String × Value)) :
    ∀ t ∈ Json.memberTokens (membersOf r), t.Legible := by
  cases r with
  | nil =>
    intro t ht
    rw [List.mem_singleton.1 ht]
    trivial
  | cons p rest =>
    obtain ⟨name, v⟩ := p
    intro t ht
    simp only [membersOf, Json.memberTokens, List.mem_cons, List.mem_append] at ht
    rcases ht with rfl | rfl | rfl | ht | ht
    · trivial
    · trivial
    · trivial
    · exact legible_toJson v t ht
    · exact legible_membersOf rest t ht

theorem legible_itemsOf (items : List Value) :
    ∀ t ∈ Json.itemTokens (itemsOf items), t.Legible := by
  cases items with
  | nil =>
    intro t ht
    rw [List.mem_singleton.1 ht]
    trivial
  | cons v rest =>
    intro t ht
    simp only [itemsOf, Json.itemTokens, List.mem_cons, List.mem_append] at ht
    rcases ht with rfl | ht | ht
    · trivial
    · exact legible_toJson v t ht
    · exact legible_itemsOf rest t ht

end

end Value

/-! ### What is taken -/

namespace OfJson

variable {nested : String → Json → Except ValueError Record} {s : Structure} {f : Field}
  {members : List (String × Json)} {r : Record}

theorem checkKey_eq_ok_iff {below : List Structure} (hs : s.Sound below) {key : String} :
    checkKey s key = .ok () ↔ ∃ f ∈ s.fields, f.name = key ∧ f.isContent := by
  unfold checkKey
  constructor
  · intro h
    split at h
    · cases h
    · next f hf =>
      split at h
      · next hcontent =>
        have hname : f.name = key := by simpa using List.find?_some hf
        exact ⟨f, List.mem_of_find?_eq_some hf, hname, hcontent⟩
      · cases h
  · rintro ⟨f, hf, rfl, hcontent⟩
    have hfind : s.field? f.name = some f := Field.find?_eq_of_mem hs.distinct hf
    rw [hfind]
    exact if_pos hcontent

theorem uint_eq_ok_iff {expected : Expected} {v : Json} {x : Value} :
    uint s f expected v = .ok x ↔ ∃ n, v = .uint n ∧ x = .uint n := by
  cases v <;> simp [uint, expect, Json.asUInt?, bind, Except.bind, pure, Except.pure, eq_comm]

theorem blob_eq_ok_iff {v : Json} {x : Value} :
    blob s f v = .ok x ↔ ∃ text data, v = .string text ∧ Hex.decode? text = some data ∧
      x = .bytes data := by
  cases v with
  | string text =>
    cases hdata : Hex.decode? text <;>
      simp [blob, expect, Json.asString?, hdata, bind, Except.bind, pure, Except.pure, eq_comm]
  | _ => simp [blob, expect, Json.asString?, bind, Except.bind]

theorem record_eq_ok_iff {v : Json} :
    record nested s v = .ok r ↔ ∃ members, v = .object members ∧
      (∀ m ∈ members, checkKey s m.1 = .ok ()) ∧ fields nested s members s.fields = .ok r := by
  cases v with
  | object members =>
    unfold record
    rw [bind_eq_ok_iff]
    constructor
    · rintro ⟨_, hkeys, hfields⟩
      exact ⟨members, rfl, forM_eq_ok_iff.1 hkeys, hfields⟩
    · rintro ⟨_, heq, hkeys, hfields⟩
      cases heq
      exact ⟨(), forM_eq_ok_iff.2 hkeys, hfields⟩
  | _ => simp [record]

/-- A field that is not given is passed over. -/
theorem fields_of_absent {rest : List Field} (h : Json.member? members f.name = none) :
    fields nested s members (f :: rest) = fields nested s members rest := by
  conv_lhs => unfold fields
  rw [h]
  exact bind_pure (fields nested s members rest)

/-- A derived field is passed over. -/
theorem fields_of_derived {rest : List Field} (hf : ¬f.isContent) :
    fields nested s members (f :: rest) = fields nested s members rest := by
  cases h : Json.member? members f.name with
  | none => exact fields_of_absent h
  | some v =>
    have hcontent : content nested s f v = .ok none := by
      unfold content
      cases hk : f.kind with
      | derived => rfl
      | _ => simp [Field.isContent, hk] at hf
    conv_lhs => unfold fields
    rw [h]
    simp only [hcontent]
    exact bind_pure (fields nested s members rest)

/-- A field that is given comes first. -/
theorem fields_of_given {rest : List Field} {v : Json} {x : Value}
    (h : Json.member? members f.name = some v) (hx : content nested s f v = .ok (some x)) :
    fields nested s members (f :: rest) = do
      return (f.name, x) :: (← fields nested s members rest) := by
  conv_lhs => unfold fields
  rw [h]
  simp only [hx]
  rfl

end OfJson

/-! ### What is taken from what was shown -/

namespace OfJson

/-- Values that are read are taken back from what is shown for them. -/
def Recovers (read : String → Reader Record) (ofJson : String → Json → Except ValueError Record) :
    Prop :=
  ∀ type r c c', read type c = .ok r c' → ofJson type r.toJson = .ok r

section

variable {read : String → Reader Record} {nested : String → Json → Except ValueError Record}
  {limits : Limits} {below : List Structure} {s : Structure} {f : Field} {frame : Frame}
  {c c' : Cursor}

theorem Recovers.item (hr : Recovers read nested) {element : Element} {x : Value}
    (h : Decode.element read element c = .ok x c') :
    OfJson.item nested s f x.toJson element = .ok x := by
  cases element with
  | struct type =>
    obtain ⟨r, hread, rfl⟩ := Reader.map_eq_ok_iff.1 h
    exact bind_eq_ok_iff.2 ⟨r, hr type r c c' hread, rfl⟩
  | scalar width =>
    obtain ⟨n, -, rfl⟩ := Reader.map_eq_ok_iff.1 h
    exact uint_eq_ok_iff.2 ⟨n, rfl, rfl⟩
  | blob size =>
    obtain ⟨data, -, rfl⟩ := Reader.map_eq_ok_iff.1 h
    exact blob_eq_ok_iff.2 ⟨_, data, rfl, Hex.decode?_encode data, rfl⟩

theorem Recovers.content (hr : Recovers read nested)
    (hforward : ∀ type, Reader.Forward (read type)) (hf : f.isContent) {v : Value}
    (h : Decode.content read limits s frame f.kind c = .ok v c') :
    OfJson.content nested s f v.toJson = .ok (some v) := by
  have hblob (data : Bytes) : blob s f (Value.bytes data).toJson = .ok (.bytes data) :=
    blob_eq_ok_iff.2 ⟨_, data, rfl, Hex.decode?_encode data, rfl⟩
  unfold OfJson.content
  cases hk : f.kind with
  | derived => simp [Field.isContent, hk] at hf
  | scalar width =>
    rw [hk] at h
    obtain ⟨n, -, rfl⟩ := Reader.map_eq_ok_iff.1 h
    exact bind_eq_ok_iff.2 ⟨_, uint_eq_ok_iff.2 ⟨n, rfl, rfl⟩, rfl⟩
  | fixedBlob size =>
    rw [hk] at h
    obtain ⟨data, -, rfl⟩ := Reader.map_eq_ok_iff.1 h
    exact bind_eq_ok_iff.2 ⟨_, hblob data, rfl⟩
  | variableBlob sizeField =>
    rw [hk] at h
    obtain ⟨length, c₁, -, h⟩ := Reader.bind_eq_ok_iff.1 h
    obtain ⟨_, c₂, -, h⟩ := Reader.bind_eq_ok_iff.1 h
    obtain ⟨data, -, rfl⟩ := Reader.map_eq_ok_iff.1 h
    exact bind_eq_ok_iff.2 ⟨_, hblob data, rfl⟩
  | embedded type =>
    rw [hk] at h
    obtain ⟨r, hread, rfl⟩ := Reader.map_eq_ok_iff.1 h
    exact bind_eq_ok_iff.2 ⟨r, hr type r c c' hread, rfl⟩
  | repeated element cardinality =>
    rw [hk] at h
    obtain ⟨items, hgroup, rfl⟩ := Reader.map_eq_ok_iff.1 h
    obtain ⟨readItem, hrun, hitem, -⟩ := Decode.exists_run_of_group hforward hgroup
    have hitems : ∀ x ∈ items, OfJson.item nested s f x.toJson element = .ok x :=
      hrun.forall_mem fun k x c c' hx => hr.item (hitem k x c c' hx)
    have hmap : (Value.itemsOf items).mapM (OfJson.item nested s f · element) = .ok items := by
      rw [Value.itemsOf_eq_map, mapM_eq_ok_iff, List.forall₂_map_left_iff, List.forall₂_same]
      exact hitems
    exact bind_eq_ok_iff.2 ⟨items, hmap, rfl⟩

/-- Fields are taken from an object that has what was read under their names. -/
theorem Recovers.fields (hr : Recovers read nested)
    (hforward : ∀ type, Reader.Forward (read type)) {members : List (String × Json)}
    {fs : List Field} {out : Record} (h : Decode.fields read limits s fs frame c = .ok out c')
    (hmembers : ∀ p ∈ out, Json.member? members p.1 = some p.2.toJson) :
    OfJson.fields nested s members fs = .ok out := by
  induction fs generalizing frame c out with
  | nil =>
    obtain ⟨rfl, -⟩ := Reader.pure_eq_ok_iff.1 h
    rfl
  | cons f rest ih =>
    rcases f.isContent_or_derived with hcontent | ⟨width, _, rule, hk⟩
    · rw [Decode.fields_content hcontent] at h
      obtain ⟨v, c₁, hv, h⟩ := Reader.bind_eq_ok_iff.1 h
      obtain ⟨others, hothers, rfl⟩ := Reader.map_eq_ok_iff.1 h
      obtain ⟨hfirst, hmembers⟩ := List.forall_mem_cons.1 hmembers
      rw [fields_of_given hfirst (hr.content hforward hcontent hv), ih hothers hmembers]
      rfl
    · rw [fields_of_derived (Field.not_isContent_of_derived hk)]
      rw [Decode.fields_derived hk] at h
      obtain ⟨n, c₁, -, h⟩ := Reader.bind_eq_ok_iff.1 h
      exact ih h hmembers

theorem Recovers.record (hr : Recovers read nested)
    (hforward : ∀ type, Reader.Forward (read type)) (hs : s.Sound below) {r : Record}
    (h : Decode.structure? limits read s c = .ok r c') : OfJson.record nested s r.toJson = .ok r := by
  have hnames := Decode.names_of_fields h
  have hmembers : (Value.membersOf r).map Prod.fst = r.names := by
    rw [Value.membersOf_eq_map, List.map_map]
    rfl
  have hnodup : ((Value.membersOf r).map Prod.fst).Nodup := by
    rw [hmembers, hnames]
    exact hs.distinct.sublist (List.filter_sublist.map _)
  refine record_eq_ok_iff.2 ⟨Value.membersOf r, rfl, ?_, ?_⟩
  · intro m hm
    have hname : m.1 ∈ (s.fields.filter (·.isContent)).map (·.name) := by
      rw [← hnames, ← hmembers]
      exact List.mem_map_of_mem hm
    obtain ⟨f, hf, hname⟩ := List.mem_map.1 hname
    obtain ⟨hf, hcontent⟩ := List.mem_filter.1 hf
    exact (checkKey_eq_ok_iff hs).2 ⟨f, hf, hname, hcontent⟩
  · refine hr.fields hforward h fun p hp => Json.member?_of_mem hnodup ?_
    rw [Value.membersOf_eq_map]
    exact List.mem_map_of_mem hp

end

end OfJson

/-- What was read of a layered schema is taken back from what is shown for it. -/
theorem Layered.recovers {structures : List Structure} (h : Layered structures)
    (limits : Limits) :
    OfJson.Recovers
      (interpret (fun name => throw (.malformed (.unknownStructure name)))
        (Decode.structure? limits) structures)
      (interpret (fun name _ => .error (.unknownStructure name)) OfJson.record structures) := by
  induction h with
  | nil =>
    intro type r c c' hread
    cases hread
  | @cons s below _ hs _ ih =>
    intro type r c c' hread
    by_cases hname : s.name = type
    · subst hname
      rw [interpret_head] at hread ⊢
      exact ih.record (forward_interpret limits below) hs hread
    · rw [interpret_tail _ _ _ hname] at hread ⊢
      exact ih type r c c' hread

end WireSchema
