import WireSchema.Proofs.Codec.Checking

/-!
# Values that are encoded alike

An encoding shows the content of a value and nothing else. Two values are equivalent for a structure
if the content fields hold the same, where an absent one holds zero, or nested structures or items
that are equivalent in turn. Whatever is done to encode them is then done alike, and this includes
how it fails.

* `FieldKind.zero`: what an absent field stands for.
* `Schema.Equivalent`: equivalent values of a structure by name; `Schema.equivalent_iff` says what
  it means for the fields.
* `Encode.Alike`: values that are measured, written and appended alike. Values of a structure are so
  if those of the structures that it refers to are.
* `Schema.encoding_of_equivalent`: the encoder does not tell equivalent values apart.
-/

namespace WireSchema

/-! ### Equivalent values -/

/-- The content that an absent field stands for. -/
def FieldKind.zero : FieldKind → Value
  | scalar _ => .uint 0
  | fixedBlob size => .bytes (List.replicate size 0)
  | variableBlob _ => .bytes []
  | embedded _ => .record []
  | repeated .. => .list []
  -- a derived field is no content
  | derived .. => .uint 0

/-- The content of a field in a value, or what an absent one stands for. -/
def Field.content (f : Field) (r : Record) : Value := (r.get? f.name).getD f.kind.zero

/-- Two items of a group are equal or equivalent, given which nested structures are. -/
inductive Element.Alike (nested : String → Record → Record → Prop) :
    Element → Value → Value → Prop
  | same {item : Element} {x : Value} : Alike nested item x x
  | record {type : String} {a b : Record} :
    nested type a b → Alike nested (.struct type) (.record a) (.record b)

/-- The contents of two fields are equal or equivalent, given which nested structures are. -/
inductive FieldKind.Alike (nested : String → Record → Record → Prop) :
    FieldKind → Value → Value → Prop
  | same {kind : FieldKind} {x : Value} : Alike nested kind x x
  | record {type : String} {a b : Record} :
    nested type a b → Alike nested (.embedded type) (.record a) (.record b)
  | list {item : Element} {cardinality : Cardinality} {xs ys : List Value} :
    List.Forall₂ (item.Alike nested) xs ys →
      Alike nested (.repeated item cardinality) (.list xs) (.list ys)

/-- Two values have equal or equivalent contents in all content fields. -/
def Structure.Equivalent (nested : String → Record → Record → Prop) (s : Structure)
    (v w : Record) : Prop :=
  ∀ f ∈ s.fields, f.isContent → f.kind.Alike nested (f.content v) (f.content w)

/-- Two values are equivalent for the structure `name`. -/
def Schema.Equivalent (schema : Schema) (name : String) : Record → Record → Prop :=
  interpret (fun _ _ _ => True) Structure.Equivalent schema.structures name

section Relation

variable {nested nested' : String → Record → Record → Prop} {kind : FieldKind} {x y : Value}

theorem FieldKind.Alike.imp (h : kind.Alike nested x y)
    (hn : ∀ type ∈ kind.references, ∀ a b, nested type a b → nested' type a b) :
    kind.Alike nested' x y := by
  cases h with
  | same => exact .same
  | @record type a b hab => exact .record (hn type (List.mem_singleton_self type) a b hab)
  | list hitems =>
    refine .list (hitems.imp fun x y hxy => ?_)
    cases hxy with
    | same => exact .same
    | @record type a b hab => exact .record (hn type (List.mem_singleton_self type) a b hab)

/-- What holds no nested structure is alike only if it is equal. -/
theorem FieldKind.Alike.eq_of_references (h : kind.Alike nested x y) (hk : kind.references = []) :
    x = y := by
  cases h with
  | same => rfl
  | record => cases hk
  | @list item cardinality xs ys hitems =>
    have heq : List.Forall₂ (· = ·) xs ys := hitems.imp fun a b hab => by
      cases hab with
      | same => rfl
      | record => cases hk
    rw [List.forall₂_eq_eq_eq] at heq
    rw [heq]

/-- Equivalence looks no further than the structures that the fields refer to. -/
theorem Structure.local_equivalent : Local Structure.Equivalent := by
  intro s nested nested' h
  funext v w
  refine propext (forall₂_congr fun f hf => imp_congr_right fun _ => ?_)
  constructor
  · exact fun hx => hx.imp fun type ht a b hab => h f hf type ht ▸ hab
  · exact fun hx => hx.imp fun type ht a b hab => (h f hf type ht).symm ▸ hab

/-- Values are equivalent if they are so field by field, where nested structures are compared as
values of theirs. -/
theorem Schema.equivalent_iff {schema : Schema} (h : Layered schema.structures) {name : String}
    {s : Structure} (hs : schema.structure? name = some s) {v w : Record} :
    schema.Equivalent name v w ↔
      ∀ f ∈ s.fields, f.isContent → f.kind.Alike schema.Equivalent (f.content v) (f.content w) := by
  rw [Equivalent, h.interpret_of_find _ _ Structure.local_equivalent hs]
  rfl

end Relation

/-! ### Steps that are taken alike -/

section Steps

variable {α : Type} {xs ys : List α}

theorem addSizes_eq_of_forall₂ {size : α → Except Error Nat} {total : Nat}
    (h : List.Forall₂ (fun x y => size x = size y) xs ys) :
    addSizes size total xs = addSizes size total ys := by
  induction h generalizing total with
  | nil => rfl
  | cons hxy _ ih => simp only [addSizes, hxy, ih]

theorem mapM_eq_of_forall₂ {m : Type → Type} [Monad m] [LawfulMonad m] {β : Type} {f : α → m β}
    (h : List.Forall₂ (fun x y => f x = f y) xs ys) : xs.mapM f = ys.mapM f := by
  induction h with
  | nil => rfl
  | cons hxy _ ih => rw [List.mapM_cons, List.mapM_cons, hxy, ih]

theorem forM_eq_of_forall₂ {m : Type → Type} [Monad m] {f : α → m PUnit}
    (h : List.Forall₂ (fun x y => f x = f y) xs ys) : xs.forM f = ys.forM f := by
  induction h with
  | nil => rfl
  | @cons x y xs ys hxy _ ih =>
    show (f x >>= fun _ => xs.forM f) = (f y >>= fun _ => ys.forM f)
    rw [hxy, ih]

theorem Writer.of_ok_bind {β : Type} (a : α) (w : α → Writer β) : (of (.ok a) >>= w) = w a := rfl

end Steps

namespace Encode

/-! ### Contents -/

section Content

variable {s : Structure} {f : Field} {o o' : Option Value}
  {nested : String → Record → Record → Prop}

theorem scalarContent_eq_of_getD (h : o.getD (.uint 0) = o'.getD (.uint 0)) :
    scalarContent s f o = scalarContent s f o' := by
  have hzero : ∀ o, scalarContent s f o = scalarContent s f (some (o.getD (.uint 0))) := by
    rintro (_ | _) <;> rfl
  rw [hzero o, hzero o', h]

theorem bytesContent_eq_of_getD (h : o.getD (.bytes []) = o'.getD (.bytes [])) :
    bytesContent s f o = bytesContent s f o' := by
  have hzero : ∀ o, bytesContent s f o = bytesContent s f (some (o.getD (.bytes []))) := by
    rintro (_ | _) <;> rfl
  rw [hzero o, hzero o', h]

/-- The empty blob is filled up to the blob of zero bytes, unless that is too large to be built. -/
theorem fit_eq_of_getD {size : Nat} (hsize : size < 2 ^ 63)
    (h : o.getD (.bytes (List.replicate size 0)) = o'.getD (.bytes (List.replicate size 0))) :
    (do fit (← bytesContent s f o) size) = (do fit (← bytesContent s f o') size) := by
  have hempty : fit [] size = fit (List.replicate size 0) size := by
    have hlarge : fit [] size = .ok (List.replicate size 0) :=
      fit_eq_ok_iff.2 ⟨Nat.zero_le _, hsize, (List.append_nil _).symm⟩
    rw [hlarge, fit_self List.length_replicate]
  have hzero : ∀ o, (do fit (← bytesContent s f o) size) =
      (do fit (← bytesContent s f (some (o.getD (.bytes (List.replicate size 0))))) size) := by
    rintro (_ | _)
    · exact hempty
    · rfl
  rw [hzero o, hzero o', h]

/-- Nested structures that are alike are both refused, or equal, or equivalent. -/
theorem recordContent_of_alike {type : String}
    (h : (FieldKind.embedded type).Alike nested (o.getD (.record [])) (o'.getD (.record []))) :
    recordContent s f o = recordContent s f o' ∨
      ∃ a b, recordContent s f o = .ok a ∧ recordContent s f o' = .ok b ∧
        nested type a b := by
  have hzero : ∀ o, recordContent s f o =
      recordContent s f (some (o.getD (.record []))) := by
    rintro (_ | _) <;> rfl
  rw [hzero o, hzero o']
  generalize o.getD (.record []) = x at h ⊢
  generalize o'.getD (.record []) = y at h ⊢
  cases h with
  | same => exact .inl rfl
  | record hab => exact .inr ⟨_, _, rfl, rfl, hab⟩

/-- Groups that are alike are both refused, or equal, or equivalent item by item. -/
theorem listContent_of_alike {item : Element} {cardinality : Cardinality}
    (h : (FieldKind.repeated item cardinality).Alike nested (o.getD (.list []))
      (o'.getD (.list []))) :
    listContent s f o = listContent s f o' ∨
      ∃ xs ys, listContent s f o = .ok xs ∧ listContent s f o' = .ok ys ∧
        List.Forall₂ (item.Alike nested) xs ys := by
  have hzero : ∀ o, listContent s f o = listContent s f (some (o.getD (.list []))) := by
    rintro (_ | _) <;> rfl
  rw [hzero o, hzero o']
  generalize o.getD (.list []) = x at h ⊢
  generalize o'.getD (.list []) = y at h ⊢
  cases h with
  | same => exact .inl rfl
  | list hitems => exact .inr ⟨_, _, rfl, rfl, hitems⟩

end Content

/-! ### Fields -/

/-- Two values of a structure are measured, written and appended alike. -/
structure Alike (encoder : String → Encoder) (writer : String → Record → Writer Unit)
    (type : String) (a b : Record) : Prop where
  size : (encoder type).size a = (encoder type).size b
  write : (encoder type).write a = (encoder type).write b
  append : writer type a = writer type b

section Fields

variable {encoder : String → Encoder} {writer : String → Record → Writer Unit}
  {below : List Structure} {s : Structure} {f : Field} {o o' : Option Value} {v w : Record}

/-- Items that are alike are measured, written and appended alike. -/
theorem item_of_alike {item : Element} {x y : Value} (h : item.Alike (Alike encoder writer) x y) :
    itemSize encoder s f item x = itemSize encoder s f item y ∧
      Encode.item encoder s f item x = Encode.item encoder s f item y ∧
      Append.item encoder writer s f item x = Append.item encoder writer s f item y := by
  cases h with
  | same => exact ⟨rfl, rfl, rfl⟩
  | record hab => exact ⟨hab.size, hab.write, hab.append⟩

theorem fieldSize_of_alike
    (h : f.kind.Alike (Alike encoder writer) (o.getD f.kind.zero) (o'.getD f.kind.zero)) :
    fieldSize encoder s f o = fieldSize encoder s f o' := by
  unfold fieldSize
  cases hk : f.kind with
  | variableBlob sizeField =>
    rw [hk] at h
    simp only [bytesContent_eq_of_getD (h.eq_of_references rfl)]
  | embedded type =>
    rw [hk] at h
    rcases recordContent_of_alike (s := s) (f := f) h with heq | ⟨a, b, ha, hb, hab⟩
    · simp only [heq]
    · simp only [ha, hb, bind, Except.bind, hab.size]
  | repeated item cardinality =>
    rw [hk] at h
    rcases listContent_of_alike (s := s) (f := f) h with heq | ⟨xs, ys, hxs, hys, hitems⟩
    · simp only [heq]
    · simp only [hxs, hys, bind, Except.bind]
      exact addSizes_eq_of_forall₂ (hitems.imp fun x y hxy => (item_of_alike hxy).1)
  | _ => rfl

/-- Groups that are alike have the same number of items. -/
theorem checkCount_of_alike {item : Element} {cardinality : Cardinality} {xs ys : List Value}
    {nested : String → Record → Record → Prop}
    (h : List.Forall₂ (item.Alike nested) xs ys) :
    checkCount s f cardinality xs = checkCount s f cardinality ys := by
  simp only [checkCount, h.length_eq]

/-- A content field is written alike. -/
theorem fieldBytes_of_alike (hcontent : f.isContent)
    (hblob : ∀ size, f.kind = .fixedBlob size → size < 2 ^ 63)
    (h : f.kind.Alike (Alike encoder writer) (f.content v) (f.content w)) :
    fieldBytes encoder s v f = fieldBytes encoder s w f := by
  unfold fieldBytes
  unfold Field.content at h
  cases hk : f.kind with
  | scalar width =>
    rw [hk] at h
    simp only [scalarContent_eq_of_getD (h.eq_of_references rfl)]
  | fixedBlob size =>
    rw [hk] at h
    exact fit_eq_of_getD (hblob size hk) (h.eq_of_references rfl)
  | variableBlob sizeField =>
    rw [hk] at h
    simp only [bytesContent_eq_of_getD (h.eq_of_references rfl)]
  | embedded type =>
    rw [hk] at h
    rcases recordContent_of_alike (s := s) (f := f) h with heq | ⟨a, b, ha, hb, hab⟩
    · simp only [heq]
    · simp only [ha, hb, bind, Except.bind, hab.write]
  | repeated item cardinality =>
    rw [hk] at h
    rcases listContent_of_alike (s := s) (f := f) h with heq | ⟨xs, ys, hxs, hys, hitems⟩
    · simp only [heq]
    · have hwritten := mapM_eq_of_forall₂ (hitems.imp fun x y hxy =>
        (item_of_alike (s := s) (f := f) hxy).2.1)
      simp only [hxs, hys, bind, Except.bind, checkCount_of_alike hitems, hwritten]
  | derived width content rule => exact absurd hcontent (Field.not_isContent_of_derived hk)

/-- A content field is appended alike. -/
theorem append_field_of_alike
    (hbytes : fieldBytes encoder s v f = fieldBytes encoder s w f)
    (h : f.kind.Alike (Alike encoder writer) (f.content v) (f.content w)) :
    Append.field encoder writer s v f = Append.field encoder writer s w f := by
  unfold Append.field
  unfold Field.content at h
  cases hk : f.kind with
  | embedded type =>
    rw [hk] at h
    rcases recordContent_of_alike (s := s) (f := f) h with heq | ⟨a, b, ha, hb, hab⟩
    · simp only [heq]
    · simp only [ha, hb]
      exact hab.append
  | repeated item cardinality =>
    rw [hk] at h
    rcases listContent_of_alike (s := s) (f := f) h with heq | ⟨xs, ys, hxs, hys, hitems⟩
    · simp only [heq]
    · have happended := forM_eq_of_forall₂ (hitems.imp fun x y hxy =>
        (item_of_alike (s := s) (f := f) hxy).2.2)
      simp only [hxs, hys, Writer.of_ok_bind, checkCount_of_alike hitems, happended]
  | _ => simp only [hbytes]

end Fields

/-! ### Structures -/

section Structures

variable {encoder : String → Encoder} {writer : String → Record → Writer Unit}
  {below : List Structure} {s : Structure} {v w : Record}
  (h : s.Equivalent (Alike encoder writer) v w)
include h

/-- The fields of equivalent values are measured alike. -/
theorem fieldSize_of_equivalent {f : Field} (hf : f ∈ s.fields) :
    fieldSize encoder s f (v.get? f.name) = fieldSize encoder s f (w.get? f.name) := by
  rcases f.isContent_or_derived with hcontent | ⟨width, content, rule, hk⟩
  · exact fieldSize_of_alike (h f hf hcontent)
  · simp only [fieldSize, hk]

theorem size_of_equivalent : size encoder s v = size encoder s w := by
  unfold size
  cases s.fixedSize with
  | some n => rfl
  | none => exact addSizes_congr fun f hf => fieldSize_of_equivalent h hf

variable (hs : s.Sound below)
include hs

/-- A derived number is that of a content field. -/
theorem derive_of_equivalent {d : Field} (hd : d ∈ s.fields) {width : Width} {content : String}
    {rule : Derivation} (hk : d.kind = .derived width content rule) :
    derive encoder s v content rule = derive encoder s w content rule := by
  obtain ⟨f, hdf, rfl, hgovernor⟩ := hs.wired.governs d hd width content rule hk
  have hf : f ∈ s.fields := hdf.subset (by simp)
  have hcontent : f.kind.Alike (Alike encoder writer) (f.content v) (f.content w) :=
    h f hf (Field.isContent_of_governor? hgovernor)
  unfold Field.content at hcontent
  cases rule with
  | byteLength =>
    rw [FieldKind.eq_variableBlob hgovernor] at hcontent
    simp only [derive, field_eq_ok hs hf, bind, Except.bind,
      bytesContent_eq_of_getD (hcontent.eq_of_references rfl)]
  | itemCount =>
    obtain ⟨item, hkind⟩ := FieldKind.exists_repeated hgovernor
    rw [hkind] at hcontent
    rcases listContent_of_alike (s := s) (f := f) hcontent with
      heq | ⟨xs, ys, hxs, hys, hitems⟩
    · simp only [derive, field_eq_ok hs hf, bind, Except.bind, heq]
    · simp only [derive, field_eq_ok hs hf, bind, Except.bind, hxs, hys, hitems.length_eq]
  | groupSize => rw [derive_groupSize hs hf, derive_groupSize hs hf, fieldSize_of_equivalent h hf]

theorem derived_of_equivalent (name : String) :
    derived encoder s v name = derived encoder s w name := by
  unfold derived field Structure.field?
  cases hfind : s.fields.find? (·.name = name) with
  | none => rfl
  | some d =>
    cases hk : d.kind with
    | derived width content rule =>
      simp only [bind, Except.bind, hk,
        derive_of_equivalent h hs (List.mem_of_find?_eq_some hfind) hk]
    | _ => simp only [bind, Except.bind, hk]

variable (hblobs : ∀ f ∈ s.fields, ∀ size, f.kind = .fixedBlob size → size < 2 ^ 63)
include hblobs

theorem fieldBytes_of_equivalent {f : Field} (hf : f ∈ s.fields) :
    fieldBytes encoder s v f = fieldBytes encoder s w f := by
  rcases f.isContent_or_derived with hcontent | ⟨width, content, rule, hk⟩
  · exact fieldBytes_of_alike hcontent (hblobs f hf) (h f hf hcontent)
  · simp only [fieldBytes, hk, derive_of_equivalent h hs hf hk]

theorem write_of_equivalent : write encoder s v = write encoder s w := by
  rw [write, write, mapM_congr fun f hf => fieldBytes_of_equivalent h hs hblobs hf]

theorem append_of_equivalent :
    Append.write encoder writer s v = Append.write encoder writer s w := by
  refine forM_congr fun f hf => ?_
  have hbytes := fieldBytes_of_equivalent h hs hblobs hf
  rcases f.isContent_or_derived with hcontent | ⟨width, content, rule, hk⟩
  · exact append_field_of_alike hbytes (h f hf hcontent)
  · simp only [Append.field, hk, hbytes]

end Structures

end Encode

namespace Schema

variable {schema : Schema}

/-- No blob of a fixed length is too large to be built from zero bytes. -/
def Buildable (schema : Schema) : Prop :=
  ∀ s ∈ schema.structures, ∀ f ∈ s.fields, ∀ size, f.kind = .fixedBlob size → size < 2 ^ 63

section

variable (h : Layered schema.structures) (hb : schema.Buildable)
include h hb

/-- Equivalent values are measured, written and appended alike. -/
theorem alike_of_equivalent {name : String} {v w : Record} (hvw : schema.Equivalent name v w) :
    Encode.Alike schema.encoder schema.append name v w := by
  induction name using h.induction generalizing v w with
  | unknown name hs =>
    constructor
    case size => rw [encoder, interpret_of_find_eq_none _ _ hs]; rfl
    case write => rw [encoder, interpret_of_find_eq_none _ _ hs]; rfl
    case append => rw [append, append, interpret_of_find_eq_none _ _ hs]
  | step name s hs ih =>
    have hfields : s.Equivalent (Encode.Alike schema.encoder schema.append) v w :=
      fun f hf hcontent => ((equivalent_iff h hs).1 hvw f hf hcontent).imp
        fun type ht a b hab => ih f hf type ht hab
    have hsound := sound_of_find h hs
    have hblobs := hb s (mem_of_findStructure? hs)
    constructor
    case size =>
      rw [encoder_of_find h hs]
      exact Encode.size_of_equivalent hfields
    case write =>
      rw [encoder_of_find h hs]
      exact Encode.write_of_equivalent hfields hsound hblobs
    case append =>
      have happend : schema.append name = Append.write schema.encoder schema.append s :=
        h.interpret_of_find _ _ (Append.local_write _) hs
      rw [happend]
      exact Encode.append_of_equivalent hfields hsound hblobs

theorem derived_of_equivalent {name : String} {v w : Record} (hvw : schema.Equivalent name v w)
    (field : String) : schema.derived name v field = schema.derived name w field := by
  cases hs : schema.structure? name with
  | none => rw [derived, derived, encoder, interpret_of_find_eq_none _ _ hs]; rfl
  | some s =>
    have hfields : s.Equivalent (Encode.Alike schema.encoder schema.append) v w :=
      fun f hf hcontent => ((equivalent_iff h hs).1 hvw f hf hcontent).imp
        fun type _ a b hab => alike_of_equivalent h hb hab
    rw [derived, derived, encoder_of_find h hs]
    exact Encode.derived_of_equivalent hfields (sound_of_find h hs) field

end

/-! ### What makes no difference -/

section

variable (h : Layered schema.structures) {name : String} {s : Structure}
  (hs : schema.structure? name = some s)
include h hs

/-- Values with the same entries under the names of content fields are equivalent. -/
theorem equivalent_of_get? {v w : Record}
    (hvw : ∀ f ∈ s.fields, f.isContent → v.get? f.name = w.get? f.name) :
    schema.Equivalent name v w := by
  refine (equivalent_iff h hs).2 fun f hf hcontent => ?_
  rw [Field.content, Field.content, hvw f hf hcontent]
  exact .same

/-- The order of the entries makes no difference. -/
theorem equivalent_of_perm {v w : Record} (hp : v.Perm w) (hn : v.names.Nodup) :
    schema.Equivalent name v w := by
  have hnames : v.names.Perm w.names := hp.map Prod.fst
  refine equivalent_of_get? h hs fun f _ _ => ?_
  cases hget : w.get? f.name with
  | some x => exact Record.get?_of_mem hn (hp.mem_iff.2 (Record.mem_of_get? hget))
  | none =>
    rw [Record.get?_eq_none_iff] at hget ⊢
    rwa [hnames.mem_iff]

/-- An entry that is no content field makes no difference. -/
theorem equivalent_insert_of_ne {other : String}
    (hother : ∀ f ∈ s.fields, f.isContent → f.name ≠ other) (v : Record) (x : Value) :
    schema.Equivalent name v (v.insert other x) :=
  equivalent_of_get? h hs fun f hf hcontent =>
    (Record.get?_insert_of_ne v x (hother f hf hcontent)).symm

/-- Content may be replaced by content that is alike. -/
theorem equivalent_insert_of_alike {f : Field} (hf : f ∈ s.fields) {v : Record} {x : Value}
    (hx : f.kind.Alike schema.Equivalent (f.content v) x) :
    schema.Equivalent name v (v.insert f.name x) := by
  refine (equivalent_iff h hs).2 fun g hg _ => ?_
  by_cases hname : g.name = f.name
  · rw [List.inj_on_of_nodup_map (sound_of_find h hs).distinct hg hf hname]
    rw [show f.content (v.insert f.name x) = x by simp [Field.content]]
    exact hx
  · rw [Field.content, Field.content, Record.get?_insert_of_ne v x hname]
    exact .same

end

/-- The encoder sees only the content that a schema names. Of equivalent values it makes the same,
or fails for the same reason. Values are equivalent whatever the order of their entries is and
whatever they hold under other names than those of content fields, if a field is left out of one and
is zero in the other, and if the content of a field is replaced by equivalent content. -/
theorem encoding_of_equivalent {d : Document} (h : Schema.resolve d = .ok schema)
    (hb : schema.Buildable) {name : String} {s : Structure}
    (hs : schema.structure? name = some s) (v : Record) :
    (∀ w, schema.Equivalent name v w →
      schema.encode name v = schema.encode name w ∧
      schema.write name v = schema.write name w ∧
      schema.append name v = schema.append name w ∧
      schema.encodedSize name v = schema.encodedSize name w ∧
      ∀ field, schema.derived name v field = schema.derived name w field) ∧
    (∀ w, v.Perm w → v.names.Nodup → schema.Equivalent name v w) ∧
    (∀ other x, (∀ f ∈ s.fields, f.isContent → f.name ≠ other) →
      schema.Equivalent name v (v.insert other x)) ∧
    (∀ f ∈ s.fields, v.get? f.name = none →
      schema.Equivalent name v (v.insert f.name f.kind.zero)) ∧
    ∀ f ∈ s.fields, ∀ x, f.kind.Alike schema.Equivalent (f.content v) x →
      schema.Equivalent name v (v.insert f.name x) := by
  have hl := layered_of_resolve h
  refine ⟨?results, ?order, ?foreign, ?missing, ?nested⟩
  case results =>
    intro w hvw
    have halike := alike_of_equivalent hl hb hvw
    have hsize : schema.encodedSize name v = schema.encodedSize name w := halike.size
    have hwrite : schema.write name v = schema.write name w := halike.write
    refine ⟨?_, hwrite, halike.append, hsize, derived_of_equivalent hl hb hvw⟩
    rw [encode, encode, hsize, hwrite]
  case order => exact fun w hp hn => equivalent_of_perm hl hs hp hn
  case foreign => exact fun other x hother => equivalent_insert_of_ne hl hs hother v x
  case missing =>
    intro f hf hnone
    refine equivalent_insert_of_alike hl hs hf ?_
    rw [Field.content, hnone]
    exact .same
  case nested => exact fun f hf x hx => equivalent_insert_of_alike hl hs hf hx

end Schema

/-! ### An example -/

/-- A packet that says of its part how many words it has, and of its first chunk nothing. -/
def wordyPacket : Record := [
  ("parts", .list [.record [("words", .list [.uint 5]), ("count", .uint 9)]]),
  ("total", .uint 3)]

/-- A packet with an empty first chunk, a digest of zero bytes and no more than the words in its
part. -/
def plainPacket : Record := [
  ("digest", .bytes [0, 0, 0]),
  ("first", .record [("words", .list [])]),
  ("parts", .list [.record [("words", .list [.uint 5])]])]

/-- The packets differ at both depths, but not in what the fields of packets and chunks hold. -/
theorem equivalent_wordyPacket : packetSchema.Equivalent "Packet" wordyPacket plainPacket := by
  have hl := layered_of_resolve resolve_packetDocument
  have hderived : ∀ {name content : String} {width : Width} {rule : Derivation},
      ¬(Field.mk name (.derived width content rule)).isContent :=
    Field.not_isContent_of_derived rfl
  have hchunk : ∀ v w : Record, v.get? "words" = w.get? "words" →
      packetSchema.Equivalent "Chunk" v w := by
    intro v w hwords
    refine Schema.equivalent_of_get? hl rfl ?_
    simp [Field.isContent, hwords]
  have hfirst : (FieldKind.embedded "Chunk").Alike packetSchema.Equivalent (.record [])
      (.record [("words", .list [])]) := by
    refine .record ((Schema.equivalent_iff hl rfl).2 ?_)
    simp only [List.forall_mem_cons]
    exact ⟨fun h => absurd h hderived, fun _ => .same, List.forall_mem_nil _⟩
  have hparts : (FieldKind.repeated (.struct "Chunk") (.budgeted "total")).Alike
      packetSchema.Equivalent
      (.list [.record [("words", .list [.uint 5]), ("count", .uint 9)]])
      (.list [.record [("words", .list [.uint 5])]]) :=
    .list (.cons (.record (hchunk _ _ rfl)) .nil)
  refine (Schema.equivalent_iff hl (s := packetStructure) rfl).2 ?_
  simp only [packetStructure, List.forall_mem_cons]
  refine ⟨fun h => absurd h hderived, fun h => absurd h hderived, ?_⟩
  exact ⟨fun _ => .same, fun _ => .same, fun _ => hfirst, fun _ => hparts, List.forall_mem_nil _⟩

theorem buildable_packetSchema : packetSchema.Buildable := by
  have hsmall : ∀ s ∈ packetSchema.structures, ∀ f ∈ s.fields,
      (f.kind.fixedSize? []).getD 0 < 2 ^ 63 := by decide
  intro s hs f hf size hk
  have hsize := hsmall s hs f hf
  rw [hk] at hsize
  exact hsize

/-- The packets are encoded alike, and it makes no difference to write the digest out or to
change the order of the fields. -/
theorem encoding_of_packets :
    packetSchema.encode "Packet" wordyPacket = packetSchema.encode "Packet" plainPacket ∧
      packetSchema.derived "Packet" wordyPacket "total" =
        packetSchema.derived "Packet" plainPacket "total" ∧
      packetSchema.Equivalent "Packet" wordyPacket
        (wordyPacket.insert "digest" (.bytes [0, 0, 0])) ∧
      packetSchema.Equivalent "Packet" wordyPacket wordyPacket.reverse := by
  have hs : packetSchema.structure? "Packet" = some packetStructure := rfl
  obtain ⟨hresults, horder, -, hmissing, -⟩ :=
    Schema.encoding_of_equivalent resolve_packetDocument buildable_packetSchema hs wordyPacket
  obtain ⟨hencode, -, -, -, hderived⟩ := hresults plainPacket equivalent_wordyPacket
  exact ⟨hencode, hderived "total", hmissing ⟨"digest", .fixedBlob 3⟩ (by decide) rfl,
    horder _ (List.reverse_perm _).symm (by decide)⟩

end WireSchema
