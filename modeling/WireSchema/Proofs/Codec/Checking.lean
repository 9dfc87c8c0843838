import WireSchema.Proofs.Codec.Kinds

/-!
# What may be assigned

A value of a field may be assigned if it fits the field: it is of the right kind, its numbers and
blobs are small enough, its groups of fixed length are complete, and whatever the structures in it
hold may be assigned in turn.

* `Encode.Fits`: the content that fits a kind of field.
* `Encode.check_eq_ok_iff`: only content fields are assigned, and only content that fits.
* `Encode.Admits`: all that a value holds may be assigned.
* `Encode.Suits`: what a value holds for a field fits it, if it holds anything.
* `Schema.kinded_of_admits`: such a value is of the right kinds, so it can be measured, unless it is
  too large.
* `Schema.fieldSize_le_of_admits`: its fields can be measured, too, and are no larger than it is.
-/

namespace WireSchema

theorem Width.check_eq_ok_iff {w : Width} {n : Nat} : w.check n = .ok () ↔ n ≤ w.maxValue := by
  by_cases h : n ≤ w.maxValue <;> simp [Width.check, h]

namespace Encode

/-- The items that fit a group, given the nested structures that are admitted. -/
inductive ItemFits (admits : String → Record → Prop) : Element → Value → Prop
  | struct {type : String} {r : Record} : admits type r → ItemFits admits (.struct type) (.record r)
  | scalar {width : Width} {n : UInt64} :
    n.toNat ≤ width.maxValue → ItemFits admits (.scalar width) (.uint n)
  | blob {size : Nat} {data : Bytes} :
    data.length ≤ size → ItemFits admits (.blob size) (.bytes data)

/-- The content that fits a kind of field. Nothing fits a derived field. -/
inductive Fits (admits : String → Record → Prop) : FieldKind → Value → Prop
  | scalar {width : Width} {n : UInt64} :
    n.toNat ≤ width.maxValue → Fits admits (.scalar width) (.uint n)
  | fixedBlob {size : Nat} {data : Bytes} :
    data.length ≤ size → Fits admits (.fixedBlob size) (.bytes data)
  | variableBlob {sizeField : String} {data : Bytes} :
    Fits admits (.variableBlob sizeField) (.bytes data)
  | embedded {type : String} {r : Record} : admits type r → Fits admits (.embedded type) (.record r)
  | repeated {element : Element} {cardinality : Cardinality} {items : List Value} :
    (∀ count, cardinality = .fixed count → items.length = count) →
      (∀ x ∈ items, ItemFits admits element x) →
        Fits admits (.repeated element cardinality) (.list items)

/-! ### What the check admits -/

section Check

variable {nested : String → Encoder} {s : Structure} {f : Field}

/-- All that a value of a nested structure holds may be assigned. -/
def Admits (nested : String → Encoder) (type : String) (r : Record) : Prop :=
  checkRecord (nested type).check r = .ok ()

theorem admits_nil (nested : String → Encoder) (type : String) : Admits nested type [] := rfl

/-- A value is admitted if all that it holds may be assigned. -/
theorem checkRecord_eq_ok_iff {check : String → Value → Except Error Unit} {r : Record} :
    checkRecord check r = .ok () ↔ ∀ p ∈ r, check p.1 p.2 = .ok () :=
  forM_eq_ok_iff

theorem checkItem_eq_ok_iff {element : Element} {x : Value} :
    checkItem nested s f element x = .ok () ↔ ItemFits (Admits nested) element x := by
  constructor
  · intro h
    cases element with
    | struct type =>
      cases x with
      | record r => exact .struct h
      | _ => cases h
    | scalar width =>
      cases x with
      | uint n => exact .scalar (Width.check_eq_ok_iff.1 h)
      | _ => cases h
    | blob size =>
      cases x with
      | bytes data => exact .blob (checkLength_eq_ok_iff.1 h)
      | _ => cases h
  · intro h
    cases h with
    | struct hr => exact hr
    | scalar hn => exact Width.check_eq_ok_iff.2 hn
    | blob hdata => exact checkLength_eq_ok_iff.2 hdata

/-- What is no constant is checked as the kind of its field demands. -/
theorem check_of_field {name : String} (hconstant : s.constant? name = none)
    (hf : s.field? name = some f) {content : Value} :
    check nested s name content = .ok () ↔ Fits (Admits nested) f.kind content := by
  have hfield : field s name = .ok f := by rw [field, hf]
  unfold check
  simp only [hconstant, hfield, Option.isSome_none, Bool.false_eq_true, if_false, bind, Except.bind]
  constructor
  · intro h
    cases hk : f.kind with
    | scalar width =>
      cases content with
      | uint n =>
        simp only [hk] at h
        exact .scalar (Width.check_eq_ok_iff.1 h)
      | _ => simp only [hk] at h; cases h
    | fixedBlob size =>
      cases content with
      | bytes data =>
        simp only [hk] at h
        exact .fixedBlob (checkLength_eq_ok_iff.1 h)
      | _ => simp only [hk] at h; cases h
    | variableBlob sizeField =>
      cases content with
      | bytes data => exact .variableBlob
      | _ => simp only [hk] at h; cases h
    | embedded type =>
      cases content with
      | record r =>
        simp only [hk] at h
        exact .embedded h
      | _ => simp only [hk] at h; cases h
    | repeated element cardinality =>
      cases content with
      | list items =>
        simp only [hk] at h
        obtain ⟨_, hcount, hitems⟩ := bind_eq_ok_iff.1 h
        exact .repeated (checkCount_eq_ok_iff.1 hcount) fun x hx =>
          checkItem_eq_ok_iff.1 (forM_eq_ok_iff.1 hitems x hx)
      | _ => simp only [hk] at h; cases h
    | derived width content rule => simp only [hk] at h; cases h
  · intro h
    generalize f.kind = kind at h
    cases h with
    | scalar hn => exact Width.check_eq_ok_iff.2 hn
    | fixedBlob hdata => exact checkLength_eq_ok_iff.2 hdata
    | variableBlob => rfl
    | embedded hr => exact hr
    | repeated hcount hitems =>
      refine bind_eq_ok_iff.2 ⟨(), checkCount_eq_ok_iff.2 hcount, ?_⟩
      exact forM_eq_ok_iff.2 fun x hx => checkItem_eq_ok_iff.2 (hitems x hx)

/-- Only content fields may be assigned, and only content that fits. -/
theorem check_eq_ok_iff {name : String} {content : Value} :
    check nested s name content = .ok () ↔
      s.constant? name = none ∧ ∃ f, s.field? name = some f ∧
        Fits (Admits nested) f.kind content := by
  cases hconstant : s.constant? name with
  | some c =>
    have hrefused : check nested s name content =
        .error (.malformed (.isConstant s.name name)) := by
      simp only [check, hconstant]
      rfl
    simp [hrefused]
  | none =>
    cases hf : s.field? name with
    | some f => simp [check_of_field hconstant hf]
    | none =>
      have hrefused : check nested s name content =
          .error (.malformed (.unknownField s.name name)) := by
        simp only [check, hconstant, field, hf]
        rfl
      simp [hrefused]

end Check

/-! ### Content that fits -/

/-- What a value holds for a field of this kind fits it, if it holds anything. -/
def Suits (admits : String → Record → Prop) (kind : FieldKind) (content : Option Value) : Prop :=
  ∀ v, content = some v → Fits admits kind v

section Suits

variable {admits : String → Record → Prop} {content : Option Value} (s : Structure) (f : Field)

theorem Suits.scalar {width : Width} (h : Suits admits (.scalar width) content) :
    ∃ n, scalarContent s f content = .ok n ∧ n.toNat ≤ width.maxValue := by
  cases content with
  | none => exact ⟨0, rfl, Nat.zero_le _⟩
  | some v =>
    cases h v rfl with
    | scalar hn => exact ⟨_, rfl, hn⟩

theorem Suits.fixedBlob {size : Nat} (h : Suits admits (.fixedBlob size) content) :
    ∃ data, bytesContent s f content = .ok data ∧ data.length ≤ size := by
  cases content with
  | none => exact ⟨[], rfl, Nat.zero_le _⟩
  | some v =>
    cases h v rfl with
    | fixedBlob hdata => exact ⟨_, rfl, hdata⟩

theorem Suits.variableBlob {sizeField : String}
    (h : Suits admits (.variableBlob sizeField) content) :
    ∃ data, bytesContent s f content = .ok data := by
  cases content with
  | none => exact ⟨[], rfl⟩
  | some v =>
    cases h v rfl with
    | variableBlob => exact ⟨_, rfl⟩

theorem Suits.embedded {type : String} (h : Suits admits (.embedded type) content)
    (hnil : admits type []) : ∃ r, recordContent s f content = .ok r ∧ admits type r := by
  cases content with
  | none => exact ⟨[], rfl, hnil⟩
  | some v =>
    cases h v rfl with
    | embedded hr => exact ⟨_, rfl, hr⟩

/-- A group may be missing; otherwise it is complete. -/
theorem Suits.repeated {element : Element} {cardinality : Cardinality}
    (h : Suits admits (.repeated element cardinality) content) :
    ∃ items, listContent s f content = .ok items ∧ (∀ x ∈ items, ItemFits admits element x) ∧
      (content = none ∧ items = [] ∨ content = some (.list items) ∧
        ∀ count, cardinality = .fixed count → items.length = count) := by
  cases content with
  | none => exact ⟨[], rfl, List.forall_mem_nil _, .inl ⟨rfl, rfl⟩⟩
  | some v =>
    cases h v rfl with
    | repeated hcount hitems => exact ⟨_, rfl, hitems, .inr ⟨rfl, hcount⟩⟩

end Suits

/-! ### Content that fits is of the right kind -/

section Kinds

variable {admits : String → Record → Prop} {kind : FieldKind} {content : Option Value}

theorem Fits.takes {v : Value} (h : Fits admits kind v) : kind.Takes v := by
  cases h with
  | scalar _ => exact .uint
  | fixedBlob _ => exact .fixedBytes
  | variableBlob => exact .bytes
  | embedded _ => exact .record
  | repeated _ hitems =>
    refine .list fun x hx => ?_
    cases hitems x hx with
    | struct _ => exact .record
    | scalar _ => exact .uint
    | blob _ => exact .fixedBytes

theorem Suits.bears (h : Suits admits kind content) : kind.Bears content :=
  fun v hv => (h v hv).takes

theorem Suits.complete (h : Suits admits kind content) : kind.Complete content := by
  rintro item count items rfl hitems
  cases h _ hitems with
  | repeated hcount _ => exact hcount count rfl

/-- What fits a field holds values that are admitted. -/
theorem admits_of_leadsTo (hnil : ∀ type, admits type []) (h : Suits admits kind content)
    {p : String × Record} (hp : kind.LeadsTo content p) : admits p.1 p.2 := by
  cases hp with
  | embedded =>
    cases h _ rfl with
    | embedded hr => exact hr
  | missing => exact hnil _
  | item hmem =>
    cases h _ rfl with
    | repeated _ hitems =>
      cases hitems _ hmem with
      | struct hr => exact hr

end Kinds

end Encode

/-! ### Values that are admitted -/

theorem Record.mem_of_get? {r : Record} {name : String} {content : Value}
    (h : r.get? name = some content) : (name, content) ∈ r := by
  induction r with
  | nil => cases h
  | cons p rest ih =>
    obtain ⟨n, v⟩ := p
    rw [get?] at h
    split at h
    · next hname =>
      cases h
      rw [hname]
      exact List.mem_cons_self
    · exact List.mem_cons_of_mem _ (ih h)

namespace Schema

variable {schema : Schema} (h : Layered schema.structures) {name : String} {s : Structure}
  (hs : schema.structure? name = some s) {r : Record}
include h hs

/-- A field may be assigned what fits it. -/
theorem check_of_fits {f : Field} (hf : f ∈ s.fields) {content : Value}
    (hfits : Encode.Fits (Encode.Admits schema.encoder) f.kind content) :
    (schema.encoder name).check f.name content = .ok () := by
  have hsound := sound_of_find h hs
  rw [encoder_of_find h hs]
  exact (Encode.check_of_field (hsound.constant?_eq_none hf)
    (Field.find?_eq_of_mem hsound.distinct hf)).2 hfits

/-- Whatever may be assigned is that of a content field, and fits it. -/
theorem fits_of_check {field : String} {content : Value}
    (hcheck : (schema.encoder name).check field content = .ok ()) :
    ∃ f ∈ s.fields, f.name = field ∧
      Encode.Fits (Encode.Admits schema.encoder) f.kind content := by
  rw [encoder_of_find h hs] at hcheck
  obtain ⟨-, f, hf, hfits⟩ := Encode.check_eq_ok_iff.1 hcheck
  exact ⟨f, List.mem_of_find?_eq_some hf, by simpa using List.find?_some hf, hfits⟩

/-- The content of a field of an admitted value fits the field. -/
theorem suits_of_admits (hr : Encode.Admits schema.encoder name r) {f : Field}
    (hf : f ∈ s.fields) : Encode.Suits (Encode.Admits schema.encoder) f.kind (r.get? f.name) := by
  intro content hget
  have hcheck := Encode.checkRecord_eq_ok_iff.1 hr _ (Record.mem_of_get? hget)
  obtain ⟨g, hg, hname, hfits⟩ := fits_of_check h hs hcheck
  rwa [List.inj_on_of_nodup_map (sound_of_find h hs).distinct hg hf hname] at hfits

omit hs

/-- The values in an admitted value are admitted. -/
theorem admits_of_reaches (hr : Encode.Admits schema.encoder name r) {q : String × Record}
    (hq : schema.Reaches (name, r) q) : Encode.Admits schema.encoder q.1 q.2 := by
  induction hq with
  | refl => exact hr
  | tail _ hstep ih =>
    obtain ⟨s, hs, f, hf, hp⟩ := hstep
    exact Encode.admits_of_leadsTo (Encode.admits_nil _) (suits_of_admits h hs ih hf) hp

/-- An admitted value is of the right kinds. -/
theorem kinded_of_admits (hr : Encode.Admits schema.encoder name r) : schema.Kinded name r :=
  fun _ hq _ hs _ hf => (suits_of_admits h hs (admits_of_reaches h hr hq) hf).bears

include hs

/-- The fields of an admitted value can be measured, and are no larger than the whole. -/
theorem fieldSize_le_of_admits (hr : Encode.Admits schema.encoder name r) {n : Nat}
    (hsize : schema.encodedSize name r = .ok n) {f : Field} (hf : f ∈ s.fields) :
    ∃ m, Encode.fieldSize schema.encoder s f (r.get? f.name) = .ok m ∧ m ≤ n :=
  fieldSize_le_of_kinded h hs (kinded_of_admits h hr) hsize hf (suits_of_admits h hs hr hf).complete

end Schema

end WireSchema
