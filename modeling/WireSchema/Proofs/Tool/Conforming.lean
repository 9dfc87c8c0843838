import WireSchema.Proofs.Codec.Setting
import WireSchema.Proofs.Tool.Completion

/-!
# JSON that conforms to a layout

A JSON value is taken for a value of a structure exactly if it conforms to the layout: it is an
object, each of its keys is the name of a content field, and what it has under this name conforms to
the field. What it is taken for shows nothing else. It holds the fields that are given, in wire
order, and every one of them is of the right kind; so when it is encoded it may turn out not to fit,
but is not mistaken for anything else.

* `Schema.Conforms`: the JSON values that conform to a kind of field.
* `Schema.Shows`: what such a JSON value shows.
* `Schema.Faithful`: what is taken from a JSON value is what it shows, and something is taken from
  every JSON value that conforms. It is carried from the items to the groups, from the fields to the
  structures, and from the structures that a structure refers to on to it
  (`Schema.faithful_recordOfJson`).
* `conforms_iff_recordOfJson`: this holds of all resolved structures, and what is taken is refused
  by the encoder only for a misfit.
-/

namespace WireSchema

/-! ### What conforms, and what it shows -/

/-- Every key is the name of a content field, and of no constant. -/
def Structure.Knows (s : Structure) (members : List (String × Json)) : Prop :=
  ∀ m ∈ members, s.constant? m.1 = none ∧ ∃ f ∈ s.fields, f.isContent ∧ f.name = m.1

/-- The fields that are given, in wire order. -/
def Structure.given (s : Structure) (members : List (String × Json)) : List Field :=
  s.fields.filter fun f => (Json.member? members f.name).isSome

namespace Schema

/-- The JSON values that conform to a kind of field: numbers that are machine words, strings of
hexadecimal digits, objects of known keys whose members conform to the fields, and arrays of items
that conform. Nothing conforms to a derived field. -/
inductive Conforms (schema : Schema) : FieldKind → Json → Prop
  | uint {width : Width} {n : UInt64} : Conforms schema (.scalar width) (.uint n)
  | fixedBytes {size : Nat} {text : String} :
    (Hex.decode? text).isSome → Conforms schema (.fixedBlob size) (.string text)
  | bytes {sizeField text : String} :
    (Hex.decode? text).isSome → Conforms schema (.variableBlob sizeField) (.string text)
  | object {type : String} {s : Structure} {members : List (String × Json)} :
    schema.structure? type = some s → s.Knows members →
      (∀ f ∈ s.fields, ∀ v, Json.member? members f.name = some v → Conforms schema f.kind v) →
        Conforms schema (.embedded type) (.object members)
  | array {item : Element} {cardinality : Cardinality} {items : List Json} :
    (∀ v ∈ items, Conforms schema item.single v) →
      Conforms schema (.repeated item cardinality) (.array items)

/-- A JSON value shows the content of a field: the same number, the bytes that are spelled, the
value of a structure that has the fields that are given, in wire order, and for each of them what is
shown there, and the list of what the items show. -/
inductive Shows (schema : Schema) : FieldKind → Json → Value → Prop
  | uint {width : Width} {n : UInt64} : Shows schema (.scalar width) (.uint n) (.uint n)
  | fixedBytes {size : Nat} {text : String} {data : Bytes} :
    Hex.decode? text = some data → Shows schema (.fixedBlob size) (.string text) (.bytes data)
  | bytes {sizeField text : String} {data : Bytes} :
    Hex.decode? text = some data →
      Shows schema (.variableBlob sizeField) (.string text) (.bytes data)
  | record {type : String} {s : Structure} {members : List (String × Json)} {r : Record} :
    schema.structure? type = some s → s.Knows members →
      r.names = (s.given members).map (·.name) →
        (∀ f ∈ s.fields, ∀ v, Json.member? members f.name = some v →
          ∀ x, r.get? f.name = some x → Shows schema f.kind v x) →
            Shows schema (.embedded type) (.object members) (.record r)
  | list {item : Element} {cardinality : Cardinality} {items : List Json} {xs : List Value} :
    items.length = xs.length → (∀ p ∈ items.zip xs, Shows schema item.single p.1 p.2) →
      Shows schema (.repeated item cardinality) (.array items) (.list xs)

end Schema

namespace Structure

variable {s : Structure} {below : List Structure} {members : List (String × Json)} {f : Field}

theorem mem_given {f : Field} :
    f ∈ s.given members ↔ f ∈ s.fields ∧ ∃ v, Json.member? members f.name = some v := by
  rw [given, List.mem_filter, Option.isSome_iff_exists]

/-- The keys that are known are those that are accepted. -/
theorem Sound.knows_iff (hs : s.Sound below) :
    s.Knows members ↔ ∀ m ∈ members, OfJson.checkKey s m.1 = .ok () := by
  refine forall₂_congr fun m _ => ?_
  rw [OfJson.checkKey_eq_ok_iff hs]
  constructor
  · rintro ⟨-, f, hf, hcontent, hname⟩
    exact ⟨f, hf, hname, hcontent⟩
  · rintro ⟨f, hf, hname, hcontent⟩
    exact ⟨hname ▸ hs.constant?_eq_none hf, f, hf, hcontent, hname⟩

/-- Only content fields are given. -/
theorem Sound.isContent_of_given (hs : s.Sound below) (hknows : s.Knows members)
    (hf : f ∈ s.given members) : f.isContent := by
  obtain ⟨hf, v, hv⟩ := mem_given.1 hf
  obtain ⟨-, g, hg, hcontent, hname⟩ := hknows _ (Json.mem_of_member? hv)
  -- no two fields have the same name
  rwa [List.inj_on_of_nodup_map hs.distinct hf hg hname.symm]

end Structure

/-! ### What is taken from a value -/

namespace Schema

/-- What is taken from a JSON value is what it shows, and something is taken if it conforms. -/
structure Faithful (schema : Schema) (kind : FieldKind) (v : Json) (taken : Value → Prop) :
    Prop where
  exists_taken : schema.Conforms kind v → ∃ x, taken x
  shows_of_taken : ∀ x, taken x → schema.Shows kind v x

/-- What is taken from a value of a structure is what it shows. -/
def FaithfulTo (schema : Schema) (ofJson : String → Json → Except ValueError Record)
    (type : String) : Prop :=
  ∀ v, schema.Faithful (.embedded type) v fun x => ∃ r, ofJson type v = .ok r ∧ .record r = x

end Schema

namespace OfJson

section Faithful

variable {schema : Schema} {nested : String → Json → Except ValueError Record}
  {below : List Structure} {s : Structure} {f : Field}

theorem faithful_uint (width : Width) (expected : Expected) (v : Json) :
    schema.Faithful (.scalar width) v fun x => uint s f expected v = .ok x where
  exists_taken h := by
    cases h with
    | uint => exact ⟨_, uint_eq_ok_iff.2 ⟨_, rfl, rfl⟩⟩
  shows_of_taken x hx := by
    obtain ⟨n, rfl, rfl⟩ := uint_eq_ok_iff.1 hx
    exact .uint

theorem faithful_blob {kind : FieldKind} {v : Json}
    (hconforms : schema.Conforms kind v → ∃ text, v = .string text ∧ (Hex.decode? text).isSome)
    (hshows : ∀ text data, Hex.decode? text = some data →
      schema.Shows kind (.string text) (.bytes data)) :
    schema.Faithful kind v fun x => blob s f v = .ok x where
  exists_taken h := by
    obtain ⟨text, rfl, hsome⟩ := hconforms h
    obtain ⟨data, hdata⟩ := Option.isSome_iff_exists.1 hsome
    exact ⟨_, blob_eq_ok_iff.2 ⟨text, data, rfl, hdata, rfl⟩⟩
  shows_of_taken x hx := by
    obtain ⟨text, data, rfl, hdata, rfl⟩ := blob_eq_ok_iff.1 hx
    exact hshows text data hdata

theorem faithful_fixedBlob (size : Nat) (v : Json) :
    schema.Faithful (.fixedBlob size) v fun x => blob s f v = .ok x := by
  refine faithful_blob (fun h => ?_) fun _ _ => .fixedBytes
  cases h with
  | fixedBytes hsome => exact ⟨_, rfl, hsome⟩

theorem faithful_variableBlob (sizeField : String) (v : Json) :
    schema.Faithful (.variableBlob sizeField) v fun x => blob s f v = .ok x := by
  refine faithful_blob (fun h => ?_) fun _ _ => .bytes
  cases h with
  | bytes hsome => exact ⟨_, rfl, hsome⟩

/-- An item is taken for what it shows. -/
theorem faithful_item {element : Element}
    (hn : ∀ type ∈ element.single.references, schema.FaithfulTo nested type) (v : Json) :
    schema.Faithful element.single v fun x => item nested s f v element = .ok x := by
  cases element with
  | struct type =>
    have hiff (x : Value) : item nested s f v (.struct type) = .ok x ↔
        ∃ r, nested type v = .ok r ∧ .record r = x :=
      bind_eq_ok_iff.trans (exists_congr fun r => and_congr_right fun _ => pure_eq_ok_iff)
    simp only [hiff]
    exact hn type (List.mem_singleton_self type) v
  | scalar width => exact faithful_uint width .uintArray v
  | blob size => exact faithful_fixedBlob size v

/-- The items of a group are taken for what they show. -/
theorem faithful_repeated {element : Element} {cardinality : Cardinality}
    (hk : f.kind = .repeated element cardinality)
    (hn : ∀ type ∈ f.kind.references, schema.FaithfulTo nested type) (v : Json) :
    schema.Faithful f.kind v fun x => content nested s f v = .ok (some x) := by
  rw [hk, ← element.references_single cardinality] at hn
  have hitem := faithful_item (s := s) (f := f) hn
  rw [hk]
  constructor
  · intro h
    cases h with
    | array hall =>
      obtain ⟨xs, hxs⟩ := exists_mapM_eq_ok fun v hv => (hitem v).exists_taken (hall v hv)
      simp only [content, hk]
      exact ⟨.list xs, bind_eq_ok_iff.2 ⟨xs, hxs, rfl⟩⟩
  · intro x hx
    simp only [content, hk] at hx
    cases v with
    | array items =>
      obtain ⟨xs, hxs, hx⟩ := bind_eq_ok_iff.1 hx
      cases hx
      obtain ⟨hlength, hzip⟩ := List.forall₂_iff_zip.1 (mapM_eq_ok_iff.1 hxs)
      exact .list hlength fun p hp => (hitem p.1).shows_of_taken p.2 (hzip hp)
    | _ => cases hx

/-- The content of a field is taken for what it shows. -/
theorem faithful_content (hn : ∀ type ∈ f.kind.references, schema.FaithfulTo nested type)
    (v : Json) : schema.Faithful f.kind v fun x => content nested s f v = .ok (some x) := by
  have hsome {y : Except ValueError Value} {x : Value} :
      (do return some (← y) : Except ValueError (Option Value)) = .ok (some x) ↔ y = .ok x := by
    cases y <;> simp [bind, Except.bind, pure, Except.pure]
  cases hk : f.kind with
  | scalar width =>
    simp only [content, hk, hsome]
    exact faithful_uint width .uint v
  | fixedBlob size =>
    simp only [content, hk, hsome]
    exact faithful_fixedBlob size v
  | variableBlob sizeField =>
    simp only [content, hk, hsome]
    exact faithful_variableBlob sizeField v
  | embedded type =>
    have hiff (x : Value) : content nested s f v = .ok (some x) ↔
        ∃ r, nested type v = .ok r ∧ .record r = x := by
      simp only [content, hk]
      refine bind_eq_ok_iff.trans (exists_congr fun r => and_congr_right fun _ => ?_)
      rw [pure_eq_ok_iff, Option.some.injEq]
    simp only [hiff]
    rw [hk] at hn
    exact hn type (List.mem_singleton_self type) v
  | repeated element cardinality =>
    rw [← hk]
    exact faithful_repeated hk hn v
  | derived width name rule =>
    constructor
    · intro h
      cases h
    · intro x hx
      simp only [content, hk] at hx
      cases hx

/-- If something is taken for every field that is given, the fields are taken. -/
theorem exists_fields_eq_ok {members : List (String × Json)} {fs : List Field}
    (h : ∀ f ∈ fs, ∀ v, Json.member? members f.name = some v →
      ∃ x, content nested s f v = .ok (some x)) : ∃ r, fields nested s members fs = .ok r := by
  induction fs with
  | nil => exact ⟨[], rfl⟩
  | cons f rest ih =>
    obtain ⟨hf, hrest⟩ := List.forall_mem_cons.1 h
    obtain ⟨others, hothers⟩ := ih hrest
    cases hv : Json.member? members f.name with
    | none => exact ⟨others, (fields_of_absent hv).trans hothers⟩
    | some v =>
      obtain ⟨x, hx⟩ := hf v hv
      exact ⟨(f.name, x) :: others, by rw [fields_of_given hv hx, hothers]; rfl⟩

/-- The fields that are taken are those that are given. -/
theorem names_eq_given {members : List (String × Json)} {r : Record} (hsound : s.Sound below)
    (hknows : s.Knows members) (h : fields nested s members s.fields = .ok r) :
    r.names = (s.given members).map (·.name) := by
  rw [names_eq_of_fields h, Structure.given]
  refine congrArg (List.map _) (List.filter_congr fun f hf => ?_)
  cases hv : Json.member? members f.name with
  | none => simp
  | some v =>
    have hcontent := hsound.isContent_of_given hknows (Structure.mem_given.2 ⟨hf, v, hv⟩)
    simp [hcontent]

/-- A structure is taken for what it shows. -/
theorem faithful_record {type : String} (hs : schema.structure? type = some s)
    (hsound : s.Sound below)
    (hn : ∀ f ∈ s.fields, ∀ type ∈ f.kind.references, schema.FaithfulTo nested type) (v : Json) :
    schema.Faithful (.embedded type) v fun x => ∃ r, record nested s v = .ok r ∧ .record r = x where
  exists_taken h := by
    cases h with
    | object hs' hknows hall =>
      cases hs.symm.trans hs'
      obtain ⟨r, hr⟩ := exists_fields_eq_ok fun f hf v hv =>
        (faithful_content (s := s) (hn f hf) v).exists_taken (hall f hf v hv)
      exact ⟨.record r, r, record_eq_ok_iff.2 ⟨_, rfl, hsound.knows_iff.1 hknows, hr⟩, rfl⟩
  shows_of_taken x hx := by
    obtain ⟨r, hr, rfl⟩ := hx
    obtain ⟨members, rfl, hkeys, hr⟩ := record_eq_ok_iff.1 hr
    have hknows := hsound.knows_iff.2 hkeys
    refine .record hs hknows (names_eq_given hsound hknows hr) fun f hf v hv x hx => ?_
    have hcontent := hsound.isContent_of_given hknows (Structure.mem_given.2 ⟨hf, v, hv⟩)
    refine (faithful_content (s := s) (hn f hf) v).shows_of_taken x ?_
    rcases get?_of_fields hr hsound.distinct hf hcontent with ⟨hnone, -⟩ | ⟨w, y, hw, hy, hget⟩
    · cases hv.symm.trans hnone
    · cases hv.symm.trans hw
      cases hx.symm.trans hget
      exact hy

end Faithful

/-! ### What is referred to -/

section Locality

variable {nested nested' : String → Json → Except ValueError Record} {s : Structure} {f : Field}

theorem item_congr {element : Element} {cardinality : Cardinality}
    (h : (FieldKind.repeated element cardinality).Agree nested nested') (v : Json) :
    item nested s f v element = item nested' s f v element := by
  cases element with
  | struct type => simp only [item, h.item]
  | scalar width => rfl
  | blob size => rfl

theorem content_congr (h : f.kind.Agree nested nested') (v : Json) :
    content nested s f v = content nested' s f v := by
  unfold content
  cases hk : f.kind with
  | embedded type =>
    rw [hk] at h
    simp only [h type (List.mem_singleton_self type)]
  | repeated element cardinality =>
    rw [hk] at h
    simp only [item_congr h]
  | _ => rfl

theorem fields_congr {members : List (String × Json)} {fs : List Field}
    (h : ∀ f ∈ fs, f.kind.Agree nested nested') :
    fields nested s members fs = fields nested' s members fs := by
  induction fs with
  | nil => rfl
  | cons f rest ih =>
    obtain ⟨hf, hrest⟩ := List.forall_mem_cons.1 h
    unfold fields
    simp only [content_congr hf, ih hrest]

theorem local_record : Local record := by
  intro s nested nested' h
  funext v
  unfold record
  simp only [fields_congr h]

end Locality

end OfJson

namespace Schema

variable {schema : Schema} (h : Layered schema.structures)
include h

/-- A value of a structure is taken by means of what is taken from values of the structures of the
schema. -/
theorem recordOfJson_of_find {name : String} {s : Structure}
    (hs : schema.structure? name = some s) :
    schema.recordOfJson name = OfJson.record schema.recordOfJson s :=
  h.interpret_of_find _ _ OfJson.local_record hs

/-- What is taken from any value of any structure is what it shows. -/
theorem faithful_recordOfJson (name : String) : schema.FaithfulTo schema.recordOfJson name := by
  induction name using h.induction with
  | unknown name hnone =>
    intro v
    constructor
    · intro hv
      cases hv with
      | object hs => cases hnone.symm.trans hs
    · rintro x ⟨r, hr, -⟩
      rw [recordOfJson, interpret_of_find_eq_none _ _ hnone] at hr
      cases hr
  | step name s hs ih =>
    unfold FaithfulTo
    rw [recordOfJson_of_find h hs]
    exact OfJson.faithful_record hs (sound_of_find h hs) ih

end Schema

/-! ### What is shown -/

namespace Schema

variable {schema : Schema} {v : Json}

namespace Shows

variable {kind : FieldKind} {x : Value}

/-- What shows something conforms. -/
theorem conforms (h : schema.Shows kind v x) : schema.Conforms kind v := by
  induction h with
  | uint => exact .uint
  | fixedBytes hdata => exact .fixedBytes (Option.isSome_of_eq_some hdata)
  | bytes hdata => exact .bytes (Option.isSome_of_eq_some hdata)
  | @record type s members r hs hknows hnames _ ih =>
    refine .object hs hknows fun f hf v hv => ?_
    have hname : f.name ∈ r.names := by
      rw [hnames]
      exact List.mem_map_of_mem (Structure.mem_given.2 ⟨hf, v, hv⟩)
    obtain ⟨x, hx⟩ := Option.ne_none_iff_exists'.1 fun hnone =>
      (Record.get?_eq_none_iff r f.name).1 hnone hname
    exact ih f hf v hv x hx
  | @list item _ items xs hlength _ ih =>
    have hall : List.Forall₂ (fun v _ => schema.Conforms item.single v) items xs :=
      List.forall₂_iff_zip.2 ⟨hlength, fun hp => ih _ hp⟩
    refine .array fun v hv => ?_
    obtain ⟨x, -, hv⟩ := exists_mem_of_forall₂ hall hv
    exact hv

/-- What is shown is of the right kind. -/
theorem takes (h : schema.Shows kind v x) : kind.Takes x := by
  induction h with
  | uint => exact .uint
  | fixedBytes _ => exact .fixedBytes
  | bytes _ => exact .bytes
  | record => exact .record
  | @list item _ items xs hlength _ ih =>
    have hall : List.Forall₂ (fun _ x => item.single.Takes x) items xs :=
      List.forall₂_iff_zip.2 ⟨hlength, fun hp => ih _ hp⟩
    refine .list fun x hx => ?_
    obtain ⟨v, -, hx⟩ := exists_mem_of_forall₂ hall.flip hx
    exact hx

/-- Every item of a group is shown. -/
theorem of_mem {item : Element} {cardinality : Cardinality} {xs : List Value}
    (h : schema.Shows (.repeated item cardinality) v (.list xs)) (hx : x ∈ xs) :
    ∃ w, schema.Shows item.single w x := by
  cases h with
  | list hlength hall =>
    have hall := List.forall₂_iff_zip.2 ⟨hlength, fun hp => hall _ hp⟩
    obtain ⟨w, -, hw⟩ := exists_mem_of_forall₂ hall.flip hx
    exact ⟨w, hw⟩

/-- An empty object shows the empty value of a structure, which stands for a missing one. -/
theorem empty {type : String} {s : Structure} (hs : schema.structure? type = some s) :
    schema.Shows (.embedded type) (.object []) (.record []) := by
  have hgiven : s.given [] = [] := List.filter_eq_nil_iff.2 fun f _ => Bool.false_ne_true
  refine .record hs (List.forall_mem_nil _) ?_ fun f _ v hv => ?_
  · rw [hgiven]
    rfl
  · cases hv

variable {name : String} {s : Structure} {r : Record}
  (h : schema.Shows (.embedded name) v (.record r))
include h

theorem exists_structure : ∃ s, schema.structure? name = some s := by
  cases h with
  | record hs => exact ⟨_, hs⟩

section Sound

variable (hs : schema.structure? name = some s) {below : List Structure} (hsound : s.Sound below)
include hs hsound

/-- What a value of a structure holds for a field is shown. -/
theorem of_get? {f : Field} (hf : f ∈ s.fields) (hx : r.get? f.name = some x) :
    ∃ w, schema.Shows f.kind w x := by
  cases h with
  | record hs' _ hnames hall =>
    cases hs.symm.trans hs'
    have hname : f.name ∈ r.names := List.mem_map_of_mem (Record.mem_of_get? hx)
    rw [hnames] at hname
    obtain ⟨g, hg, hname⟩ := List.mem_map.1 hname
    obtain ⟨hg, w, hw⟩ := Structure.mem_given.1 hg
    obtain rfl := List.inj_on_of_nodup_map hsound.distinct hg hf hname
    exact ⟨w, hall g hg w hw x hx⟩

/-- What is shown holds content fields only, none of them twice. -/
theorem tidy : schema.Tidy name r := by
  cases h with
  | record hs' hknows hnames _ =>
    cases hs.symm.trans hs'
    refine ⟨?_, fun t ht n hn => ?_⟩
    · rw [hnames]
      exact hsound.distinct.sublist (List.filter_sublist.map _)
    · cases hs.symm.trans ht
      rw [hnames] at hn
      obtain ⟨f, hf, rfl⟩ := List.mem_map.1 hn
      exact ⟨f, (Structure.mem_given.1 hf).1, hsound.isContent_of_given hknows hf, rfl⟩

end Sound

variable (hl : Layered schema.structures)
include hl

/-- The values that a shown value holds are shown, too. -/
theorem of_leadsTo {q : String × Record} (hq : schema.LeadsTo (name, r) q) :
    ∃ w, schema.Shows (.embedded q.1) w (.record q.2) := by
  obtain ⟨s, hs, f, hf, hq⟩ := hq
  have hsound := sound_of_find hl hs
  have hreferences := hsound.references f hf
  have hfield (x : Value) (hx : r.get? f.name = some x) := h.of_get? hs hsound hf hx
  generalize r.get? f.name = content at hq hfield
  generalize f.kind = kind at hq hfield hreferences
  cases hq with
  | embedded => exact hfield _ rfl
  | @missing type =>
    obtain ⟨t, ht⟩ := Option.isSome_iff_exists.1 (hreferences type (List.mem_singleton_self type))
    exact ⟨_, .empty ht⟩
  | item hr =>
    obtain ⟨w, hw⟩ := hfield _ rfl
    exact hw.of_mem hr

/-- All values that a shown value reaches are shown. -/
theorem of_reaches {q : String × Record} (hq : schema.Reaches (name, r) q) :
    ∃ w, schema.Shows (.embedded q.1) w (.record q.2) := by
  induction hq with
  | refl => exact ⟨v, h⟩
  | tail _ hstep ih =>
    obtain ⟨w, hw⟩ := ih
    exact hw.of_leadsTo hl hstep

theorem tidy_of_reaches {q : String × Record} (hq : schema.Reaches (name, r) q) :
    schema.Tidy q.1 q.2 := by
  obtain ⟨w, hw⟩ := h.of_reaches hl hq
  obtain ⟨s, hs⟩ := hw.exists_structure
  exact hw.tidy hs (sound_of_find hl hs)

theorem kinded : schema.Kinded name r := by
  intro q hq s hs f hf x hx
  obtain ⟨w, hw⟩ := h.of_reaches hl hq
  obtain ⟨u, hu⟩ := hw.of_get? hs (sound_of_find hl hs) hf hx
  exact hu.takes

end Shows

end Schema

/-- A JSON value is taken for a value of a structure exactly if it conforms. What it is taken for is
what it shows: the fields that are given, in wire order, each with the content that it shows. At
every depth there are content fields only, none of them twice and all of the right kinds; so the
encoder refuses it only because something does not fit, unless it is too large for a buffer. -/
theorem conforms_iff_recordOfJson {d : Document} {schema : Schema}
    (h : Schema.resolve d = .ok schema) (name : String) (v : Json) :
    ((∃ r, schema.recordOfJson name v = .ok r) ↔ schema.Conforms (.embedded name) v) ∧
      ∀ r, schema.recordOfJson name v = .ok r →
        schema.Shows (.embedded name) v (.record r) ∧
          (∀ q, schema.Reaches (name, r) q → schema.Tidy q.1 q.2) ∧ schema.Kinded name r ∧
            ∀ e, schema.encode name r = .error e →
              e.Misfit ∨ schema.Oversized name r ∧ ∃ fault, e = .abort fault := by
  have hl := layered_of_resolve h
  have hfaithful := Schema.faithful_recordOfJson hl name v
  have hshows (r : Record) (hr : schema.recordOfJson name v = .ok r) :
      schema.Shows (.embedded name) v (.record r) := hfaithful.shows_of_taken _ ⟨r, hr, rfl⟩
  refine ⟨⟨?_, fun hv => ?_⟩, fun r hr => ?_⟩
  · rintro ⟨r, hr⟩
    exact (hshows r hr).conforms
  · obtain ⟨x, r, hr, -⟩ := hfaithful.exists_taken hv
    exact ⟨r, hr⟩
  · have hr := hshows r hr
    obtain ⟨s, hs⟩ := hr.exists_structure
    exact ⟨hr, fun q => hr.tidy_of_reaches hl, hr.kinded hl,
      fun e => Schema.misfit_of_encode hl hs (hr.kinded hl)⟩

/-- The sparse packet conforms, and its parts are shown as what was given of them. -/
theorem conforms_sparsePacketJson :
    Schema.resolve packetDocument = .ok packetSchema ∧
      packetSchema.Conforms (.embedded "Packet") sparsePacketJson ∧
      packetSchema.Shows (.embedded "Packet") sparsePacketJson (.record [("digest", .bytes [7]),
        ("parts", .list [.record [("words", .list [.uint 1, .uint 2])], .record []])]) := by
  have hr : packetSchema.recordOfJson "Packet" sparsePacketJson = .ok [("digest", .bytes [7]),
      ("parts", .list [.record [("words", .list [.uint 1, .uint 2])], .record []])] := rfl
  have hpacket := conforms_iff_recordOfJson resolve_packetDocument "Packet" sparsePacketJson
  exact ⟨resolve_packetDocument, hpacket.1.1 ⟨_, hr⟩, (hpacket.2 _ hr).1⟩

end WireSchema
