import WireSchema.Proofs.Codec.Checking

/-!
# Assigning and encoding

The same rules hold where content is assigned and where a value is encoded, apart from what can only
be seen when it is encoded: that a group of fixed length is missing, and that a derived number does
not fit its width. On the other hand, encoding overlooks what a value holds under names that are not
those of content fields, and assigning does not.

* `Schema.assign`: assigns a field, or leaves the value as it is.
* `Schema.Gap`: the reasons for which an assigned value may still not be encoded.
* `Encode.Refusal`: the same for a single field. `Schema.gap_of_write` collects them.
* `Schema.Tidy`: a value holds content fields only. `Schema.admits_of_write`: a value that is
  written and tidy throughout may be assigned.
* `Schema.setting_agrees`: what has been assigned is encoded unless there is a gap, and what has
  been encoded may be assigned.
-/

namespace WireSchema

/-! ### The fields of an assigned value -/

namespace Encode

/-- Why a field of an assigned value is not written: a value that it holds is not, it is a group of
fixed length that is missing, or its number does not fit its width. -/
inductive Refusal (nested : String → Encoder) (s : Structure) (r : Record) (f : Field) :
    Error → Prop
  | inside {type : String} {inner : Record} {e : Error} :
    f.kind.LeadsTo (r.get? f.name) (type, inner) → (nested type).write inner = .error e →
      Refusal nested s r f e
  | absent {element : Element} {count : Nat} :
    f.kind = .repeated element (.fixed count) → count ≠ 0 → r.get? f.name = none →
      Refusal nested s r f (.malformed (.itemCount s.name f.name 0 count))
  | overflow {width : Width} {content : String} {rule : Derivation} {n : Nat} :
    f.kind = .derived width content rule → derive nested s r content rule = .ok n →
      width.maxValue < n → Refusal nested s r f (.overflow n width.bytes)

section Refused

variable {nested : String → Encoder} {admits : String → Record → Prop} {s : Structure}
  {r : Record} {f : Field} {m : Nat} {e : Error}

theorem exists_fit {data : Bytes} {size : Nat} (hlength : data.length ≤ size)
    (hsize : size < 2 ^ 63) : ∃ bs, fit data size = .ok bs :=
  ⟨_, fit_eq_ok_iff.2 ⟨hlength, by omega, rfl⟩⟩

/-- An item that fits its group is refused only for the value that it holds. -/
theorem write_eq_error_of_item {element : Element} {x : Value} (hfits : ItemFits admits element x)
    (hm : itemSize nested s f element x = .ok m) (hlt : m < 2 ^ 63)
    (he : item nested s f element x = .error e) :
    ∃ type inner, element = .struct type ∧ x = .record inner ∧
      (nested type).write inner = .error e := by
  cases hfits with
  | @struct type inner _ => exact ⟨type, inner, rfl, rfl, he⟩
  | scalar hn =>
    have hok := Width.encode_eq_ok_iff.2 ⟨hn, rfl⟩
    cases hok.symm.trans he
  | blob hlength =>
    cases hm
    obtain ⟨bs, hok⟩ := exists_fit hlength hlt
    cases hok.symm.trans he

/-- A group that fits is refused for a value that it holds, or because it is missing. -/
theorem refusal_of_repeated {element : Element} {cardinality : Cardinality}
    (hk : f.kind = .repeated element cardinality)
    (hsuits : Suits admits f.kind (r.get? f.name))
    (hm : fieldSize nested s f (r.get? f.name) = .ok m) (hlt : m < 2 ^ 63)
    (he : fieldBytes nested s r f = .error e) : Refusal nested s r f e := by
  rw [hk] at hsuits
  obtain ⟨items, hitems, hall, hget⟩ := hsuits.repeated s f
  rcases error_of_repeated hk hitems he with ⟨count, rfl, hne, rfl⟩ | ⟨-, x, hx, hitem⟩
  · rcases hget with ⟨hget, rfl⟩ | ⟨-, hcount⟩
    · exact .absent hk (Ne.symm hne) hget
    · exact absurd (hcount count rfl) hne
  · obtain ⟨k, hsize, hle⟩ := itemSize_le_of_fieldSize hk hitems hm hx
    obtain ⟨type, inner, rfl, rfl, hwrite⟩ :=
      write_eq_error_of_item (hall x hx) hsize (by omega) hitem
    have hp : f.kind.LeadsTo (r.get? f.name) (type, inner) := by
      rcases hget with ⟨-, rfl⟩ | ⟨hget, -⟩
      · cases hx
      · rw [hk, hget]
        exact .item hx
    exact .inside hp hwrite

/-- A field that fits is refused only for one of the three reasons. -/
theorem refusal_of_fieldBytes (hnil : ∀ type, admits type [])
    (hsuits : Suits admits f.kind (r.get? f.name))
    (hm : fieldSize nested s f (r.get? f.name) = .ok m) (hlt : m < 2 ^ 63)
    (hderive : ∀ width content rule, f.kind = .derived width content rule →
      ∃ n, derive nested s r content rule = .ok n)
    (he : fieldBytes nested s r f = .error e) : Refusal nested s r f e := by
  -- what is written cannot be refused
  have hrefused : ∀ bs, fieldBytes nested s r f ≠ .ok bs := fun bs hok => by
    cases hok.symm.trans he
  cases hk : f.kind with
  | scalar width =>
    rw [hk] at hsuits
    obtain ⟨n, hcontent, hn⟩ := hsuits.scalar s f
    have hbs := Width.encode_eq_ok_iff.2 ⟨hn, rfl⟩
    exact absurd ((fieldBytes_scalar hk).2 ⟨n, hcontent, hbs⟩) (hrefused _)
  | fixedBlob length =>
    rw [hk] at hsuits
    obtain ⟨data, hcontent, hlength⟩ := hsuits.fixedBlob s f
    have hlarge : length < 2 ^ 63 := by
      simp only [fieldSize, hk] at hm
      cases hm
      exact hlt
    obtain ⟨bs, hbs⟩ := exists_fit hlength hlarge
    exact absurd ((fieldBytes_fixedBlob hk).2 ⟨data, hcontent, hbs⟩) (hrefused _)
  | variableBlob sizeField =>
    rw [hk] at hsuits
    obtain ⟨data, hdata⟩ := hsuits.variableBlob s f
    exact absurd ((fieldBytes_variableBlob hk).2 hdata) (hrefused _)
  | embedded type =>
    rw [hk] at hsuits
    obtain ⟨inner, hinner, -⟩ := hsuits.embedded s f (hnil type)
    have hp : f.kind.LeadsTo (r.get? f.name) (type, inner) := by
      rcases recordContent_eq_ok_iff.1 hinner with ⟨hget, rfl⟩ | hget
      · rw [hk, hget]
        exact .missing
      · rw [hk, hget]
        exact .embedded
    simp only [fieldBytes, hk, hinner] at he
    exact .inside hp he
  | repeated element cardinality => exact refusal_of_repeated hk hsuits hm hlt he
  | derived width content rule =>
    obtain ⟨n, hn⟩ := hderive width content rule hk
    simp only [fieldBytes, hk, hn] at he
    obtain ⟨hlarge, rfl⟩ := Width.encode_eq_error_iff.1 he
    exact .overflow hk hn hlarge

end Refused

end Encode

/-! ### What has been assigned -/

/-- An assignment keeps what was there, and adds what is assigned. -/
theorem Record.mem_insert {r : Record} {name : String} {content : Value} {p : String × Value}
    (hp : p ∈ r.insert name content) : p ∈ r ∨ p = (name, content) := by
  induction r with
  | nil => exact .inr (List.mem_singleton.1 hp)
  | cons q rest ih =>
    obtain ⟨n, v⟩ := q
    rw [insert] at hp
    split at hp
    · next hname =>
      rw [hname] at hp
      rcases List.mem_cons.1 hp with hp | hp
      · exact .inr hp
      · exact .inl (List.mem_cons_of_mem _ hp)
    · rcases List.mem_cons.1 hp with rfl | hp
      · exact .inl List.mem_cons_self
      · exact (ih hp).imp (List.mem_cons_of_mem _) id

namespace Schema

variable {schema : Schema} {name : String} {s : Structure} {v r : Record} {e : Error}

/-- Assigns some content to a field, or leaves the value as it is where that is refused. -/
def assign (schema : Schema) (name : String) (v : Record) (call : String × Value) : Record :=
  (schema.set name v call.1 call.2).toOption.getD v

theorem set_eq_ok_iff {field : String} {content : Value} :
    schema.set name v field content = .ok r ↔
      (schema.encoder name).check field content = .ok () ∧ r = v.insert field content := by
  unfold set
  rw [bind_eq_ok_iff]
  constructor
  · rintro ⟨_, hcheck, hr⟩
    exact ⟨hcheck, (pure_eq_ok_iff.1 hr).symm⟩
  · rintro ⟨hcheck, rfl⟩
    exact ⟨(), hcheck, rfl⟩

/-- A step of assigning keeps to what may be assigned. -/
theorem admits_assign (hv : Encode.Admits schema.encoder name v) (call : String × Value) :
    Encode.Admits schema.encoder name (schema.assign name v call) := by
  unfold assign
  cases hset : schema.set name v call.1 call.2 with
  | error e => exact hv
  | ok r =>
    obtain ⟨hcheck, rfl⟩ := set_eq_ok_iff.1 hset
    refine Encode.checkRecord_eq_ok_iff.2 fun p hp => ?_
    rcases Record.mem_insert hp with hp | rfl
    · exact Encode.checkRecord_eq_ok_iff.1 hv p hp
    · exact hcheck

/-- So does any sequence of them. -/
theorem admits_foldl_assign (hv : Encode.Admits schema.encoder name v)
    (calls : List (String × Value)) :
    Encode.Admits schema.encoder name (calls.foldl (schema.assign name) v) := by
  induction calls generalizing v with
  | nil => exact hv
  | cons call calls ih => exact ih (admits_assign hv call)

/-- Why a value may not be encoded although all of its content was assigned: in the value or in one
that it reaches, a group of fixed length is missing that is not empty, or a derived number does not
fit its width. -/
inductive Gap (schema : Schema) (name : String) (v : Record) : Error → Prop
  | absent {type : String} {r : Record} {s : Structure} {f : Field} {element : Element}
    {count : Nat} :
    schema.Reaches (name, v) (type, r) → schema.structure? type = some s → f ∈ s.fields →
      f.kind = .repeated element (.fixed count) → count ≠ 0 → r.get? f.name = none →
        Gap schema name v (.malformed (.itemCount s.name f.name 0 count))
  | overflow {type : String} {r : Record} {s : Structure} {d : Field} {width : Width}
    {content : String} {rule : Derivation} {n : Nat} :
    schema.Reaches (name, v) (type, r) → schema.structure? type = some s → d ∈ s.fields →
      d.kind = .derived width content rule → schema.derived type r d.name = .ok n →
        width.maxValue < n → Gap schema name v (.overflow n width.bytes)

/-- A gap in a value that a value holds is a gap in both. -/
theorem Gap.of_leadsTo {type : String} (hstep : schema.LeadsTo (name, v) (type, r))
    (hgap : schema.Gap type r e) : schema.Gap name v e := by
  cases hgap with
  | absent hr hs hf hk hcount hget => exact .absent (.head hstep hr) hs hf hk hcount hget
  | overflow hr hs hd hk hn hlarge => exact .overflow (.head hstep hr) hs hd hk hn hlarge

variable (h : Layered schema.structures) (hs : schema.structure? name = some s)
include h

/-- A value with a gap is not written. -/
theorem Gap.write_ne (hgap : schema.Gap name v e) (bs : Bytes) : schema.write name v ≠ .ok bs := by
  intro hw
  cases hgap with
  | absent hr hs hf hk hcount hget =>
    obtain ⟨part, -, hw⟩ := write_of_reaches h hr hw
    obtain ⟨chunk, -, hchunk⟩ := fieldBytes_of_write h hs hw hf
    obtain ⟨items, -, hitems, hlength, -⟩ := (Encode.fieldBytes_repeated hk).1 hchunk
    rw [hget] at hitems
    cases hitems
    exact hcount (hlength _ rfl).symm
  | overflow hr hs hd hk hn hlarge =>
    obtain ⟨part, -, hw⟩ := write_of_reaches h hr hw
    obtain ⟨c, -, -, -, m, described, hm, hle, -⟩ := tells_of_write h hs hw hd hk
    cases hn.symm.trans hm
    omega

include hs

/-- An admitted value that is not too large is refused only for a gap. -/
theorem gap_of_write (hr : Encode.Admits schema.encoder name r) {n : Nat}
    (hsize : schema.encodedSize name r = .ok n) (hlt : n < 2 ^ 63)
    (he : schema.write name r = .error e) : schema.Gap name r e := by
  refine h.induction_of_found
    (P := fun name _ => ∀ r n, Encode.Admits schema.encoder name r →
      schema.encodedSize name r = .ok n → n < 2 ^ 63 → schema.write name r = .error e →
        schema.Gap name r e)
    (fun name s hs ih r n hr hsize hlt he => ?_) hs r n hr hsize hlt he
  have hwritten := he
  rw [write_of_find h hs] at hwritten
  rcases bind_eq_error_iff.1 hwritten with hmap | ⟨_, -, hpure⟩
  · obtain ⟨f, hf, hfield⟩ := exists_of_mapM_eq_error hmap
    obtain ⟨m, hm, hle⟩ := fieldSize_le_of_admits h hs hr hsize hf
    have hsuits := suits_of_admits h hs hr hf
    have hderive : ∀ width content rule, f.kind = .derived width content rule →
        ∃ n, Encode.derive schema.encoder s r content rule = .ok n := fun _ _ _ =>
      exists_derive_of_kinded h hs (kinded_of_admits h hr) hsize hf
    have hrefusal := Encode.refusal_of_fieldBytes (Encode.admits_nil _) hsuits hm (by omega)
      hderive hfield
    cases hrefusal with
    | @inside type inner _ hp hwrite =>
      obtain ⟨t, -, hgap⟩ := ih f hf type hp.mem_references
      obtain ⟨k, hk, hk'⟩ := Encode.size_le_of_leadsTo hm hp
      have hinner := Encode.admits_of_leadsTo (Encode.admits_nil _) hsuits hp
      exact (hgap inner k hinner hk (by omega) hwrite).of_leadsTo ⟨s, hs, f, hf, hp⟩
    | absent hk hcount hget => exact .absent .refl hs hf hk hcount hget
    | overflow hk hn hlarge =>
      exact .overflow .refl hs hf hk ((derived_of_find h hs hf hk r).trans hn) hlarge
  · cases hpure

/-- An admitted value that is not too large is encoded unless there is a gap. -/
theorem gap_of_encode (hr : Encode.Admits schema.encoder name r)
    (hsize : ¬schema.Oversized name r) (he : schema.encode name r = .error e) :
    schema.Gap name r e := by
  rcases sizable_of_kinded h hs (kinded_of_admits h hr) with ⟨n, hn⟩ | hover
  · have hlt : n < 2 ^ 63 := Nat.lt_of_not_le fun hlarge => hsize (.inr ⟨n, hn, hlarge⟩)
    cases hw : schema.write name r with
    | error e' =>
      have he' : schema.encode name r = .error e' := by
        simp only [encode, hn, checkBuffer_eq_ok_iff.2 hlt, hw, bind, Except.bind]
      cases he.symm.trans he'
      exact gap_of_write h hs hr hn hlt hw
    | ok bs =>
      cases he.symm.trans ((encode_eq_ok_iff_write h hsize).2 hw)
  · exact absurd (.inl hover) hsize

omit hs

/-- A value with a gap is not encoded. -/
theorem Gap.encode_ne (hgap : schema.Gap name v e) (bs : Bytes) :
    schema.encode name v ≠ .ok bs :=
  fun he => hgap.write_ne h bs ((encode_eq_ok_iff h).1 he).1

end Schema

/-! ### What has been encoded -/

/-- What is written for a field fits it, if what it holds is admitted. -/
theorem Encode.fits_of_fieldBytes {nested : String → Encoder} {admits : String → Record → Prop}
    {s : Structure} {r : Record} {f : Field} {content : Value} {bs : Bytes} (hf : f.isContent)
    (hget : r.get? f.name = some content) (hbs : fieldBytes nested s r f = .ok bs)
    (hn : ∀ p, f.kind.LeadsTo (some content) p → ∀ part, (nested p.1).write p.2 = .ok part →
      admits p.1 p.2) : Fits admits f.kind content := by
  cases hk : f.kind with
  | scalar width =>
    obtain ⟨n, hn, hbytes⟩ := (fieldBytes_scalar hk).1 hbs
    rw [hget] at hn
    cases content with
    | uint m =>
      cases hn
      exact .scalar (Width.encode_eq_ok_iff.1 hbytes).1
    | _ => cases hn
  | fixedBlob size =>
    obtain ⟨data, hdata, hbytes⟩ := (fieldBytes_fixedBlob hk).1 hbs
    rw [hget] at hdata
    cases content with
    | bytes other =>
      cases hdata
      exact .fixedBlob (fit_eq_ok_iff.1 hbytes).1
    | _ => cases hdata
  | variableBlob sizeField =>
    have hdata := (fieldBytes_variableBlob hk).1 hbs
    rw [hget] at hdata
    cases content with
    | bytes data => exact .variableBlob
    | _ => cases hdata
  | embedded type =>
    obtain ⟨inner, hinner, hbytes⟩ := (fieldBytes_embedded hk).1 hbs
    rw [hget] at hinner
    rw [hk] at hn
    cases content with
    | record r =>
      cases hinner
      exact .embedded (hn (type, inner) .embedded bs hbytes)
    | _ => cases hinner
  | repeated element cardinality =>
    obtain ⟨items, chunks, hitems, hcount, hchunks, -⟩ := (fieldBytes_repeated hk).1 hbs
    rw [hget] at hitems
    rw [hk] at hn
    cases content with
    | list others =>
      cases hitems
      refine .repeated hcount fun x hx => ?_
      obtain ⟨part, -, hpart⟩ := exists_mem_of_forall₂ hchunks hx
      cases element with
      | struct type =>
        obtain ⟨inner, rfl, hwrite⟩ := item_struct.1 hpart
        exact .struct (hn (type, inner) (.item hx) part hwrite)
      | scalar width =>
        obtain ⟨n, rfl, hbytes⟩ := item_scalar.1 hpart
        exact .scalar (Width.encode_eq_ok_iff.1 hbytes).1
      | blob size =>
        obtain ⟨data, rfl, hbytes⟩ := item_blob.1 hpart
        exact .blob (fit_eq_ok_iff.1 hbytes).1
    | _ => cases hitems
  | derived width content rule => exact absurd hf (Field.not_isContent_of_derived hk)

namespace Schema

variable {schema : Schema} {name : String} {s : Structure} {v r : Record}

/-- A value of a structure has no names but those of content fields, and none twice. No value that
is put together by assigning has a name twice. -/
structure Tidy (schema : Schema) (type : String) (r : Record) : Prop where
  distinct : r.names.Nodup
  content : ∀ s, schema.structure? type = some s → ∀ n ∈ r.names,
    ∃ f ∈ s.fields, f.isContent ∧ f.name = n

variable (h : Layered schema.structures)
include h

/-- A value that is written may be assigned, if it is tidy throughout. -/
theorem admits_of_write {bs : Bytes} (hw : schema.write name r = .ok bs)
    (htidy : ∀ q, schema.Reaches (name, r) q → schema.Tidy q.1 q.2) :
    Encode.Admits schema.encoder name r := by
  obtain ⟨s, hs⟩ := exists_of_write hw
  refine h.induction_of_found
    (P := fun name _ => ∀ r bs, schema.write name r = .ok bs →
      (∀ q, schema.Reaches (name, r) q → schema.Tidy q.1 q.2) →
        Encode.Admits schema.encoder name r)
    (fun name s hs ih r bs hw htidy => ?_) hs r bs hw htidy
  refine Encode.checkRecord_eq_ok_iff.2 fun p hp => ?_
  have htop := htidy (name, r) .refl
  obtain ⟨f, hf, hcontent, hname⟩ := htop.content s hs p.1 (List.mem_map_of_mem hp)
  have hget : r.get? f.name = some p.2 := by
    rw [hname]
    exact Record.get?_of_mem htop.distinct hp
  obtain ⟨part, -, hpart⟩ := fieldBytes_of_write h hs hw hf
  rw [← hname]
  refine check_of_fits h hs hf (Encode.fits_of_fieldBytes hcontent hget hpart ?_)
  intro q hq bs hwrite
  obtain ⟨t, -, hadmits⟩ := ih f hf q.1 hq.mem_references
  have hstep : schema.LeadsTo (name, r) q := ⟨s, hs, f, hf, by rwa [hget]⟩
  exact hadmits q.2 bs hwrite fun q' hq' => htidy q' (.head hstep hq')

/-- The content of a field of a value that is written may be assigned anywhere, if it is tidy. -/
theorem set_of_write (hs : schema.structure? name = some s) {bs : Bytes}
    (hw : schema.write name v = .ok bs) {f : Field} (hf : f ∈ s.fields) (hcontent : f.isContent)
    {content : Value} (hget : v.get? f.name = some content)
    (htidy : ∀ p, f.kind.LeadsTo (some content) p → ∀ q, schema.Reaches p q →
      schema.Tidy q.1 q.2) (target : Record) :
    schema.set name target f.name content = .ok (target.insert f.name content) := by
  obtain ⟨part, -, hpart⟩ := fieldBytes_of_write h hs hw hf
  refine set_eq_ok_iff.2 ⟨check_of_fits h hs hf ?_, rfl⟩
  exact Encode.fits_of_fieldBytes hcontent hget hpart fun p hp _ hwrite =>
    admits_of_write h hwrite (htidy p hp)

omit h

/-- The same rules hold for assigning and for encoding. A value that was put together by assigning,
and is not too large, is encoded unless it has a gap, and is refused only for one. Of a value that
is encoded, the content of each field may be assigned to the field of any other value, as long as
the structures in it have no names but those of content fields. -/
theorem setting_agrees {d : Document} (h : Schema.resolve d = .ok schema)
    (hs : schema.structure? name = some s) :
    (∀ (calls : List (String × Value)) (v : Record), v = calls.foldl (schema.assign name) [] →
      ¬schema.Oversized name v →
        ((∃ bs, schema.encode name v = .ok bs) ↔ ∀ e, ¬schema.Gap name v e) ∧
          ∀ e, schema.encode name v = .error e → schema.Gap name v e) ∧
    ∀ v bs, schema.encode name v = .ok bs → ∀ f ∈ s.fields, f.isContent →
      ∀ content, v.get? f.name = some content →
        (∀ p, f.kind.LeadsTo (some content) p → ∀ q, schema.Reaches p q → schema.Tidy q.1 q.2) →
          ∀ target, schema.set name target f.name content =
            .ok (target.insert f.name content) := by
  have hl := layered_of_resolve h
  constructor
  · rintro calls v rfl hsize
    have hadmits := admits_foldl_assign (Encode.admits_nil schema.encoder name) calls
    refine ⟨⟨?_, fun hgap => ?_⟩, fun e he => gap_of_encode hl hs hadmits hsize he⟩
    · rintro ⟨bs, he⟩ e hgap
      exact hgap.encode_ne hl bs he
    · cases he : schema.encode name (calls.foldl (schema.assign name) []) with
      | ok bs => exact ⟨bs, rfl⟩
      | error e => exact absurd (gap_of_encode hl hs hadmits hsize he) (hgap e)
  · intro v bs he f hf hcontent content hget htidy
    exact set_of_write hl hs ((encode_eq_ok_iff hl).1 he).1 hf hcontent hget htidy

end Schema

/-! ### An example -/

/-- Routes: a starting point and any number of others, of three coordinates each. -/
def routeDocument : Document :=
  .ofList [
    ("word", .byte 2 (some .unsigned)),
    ("Point", .struct [(Attribute.named "axes" "word").withSize (.fixed 3)]),
    ("Route", .struct [
      .named "start" "Point",
      .named "count" "word",
      (Attribute.named "points" "Point").withSize (.field "count")])]

/-- The structure of routes. -/
def routeStructure : Structure where
  name := "Route"
  fields := [
    ⟨"start", .embedded "Point"⟩,
    ⟨"count", .derived .two "points" .itemCount⟩,
    ⟨"points", .repeated (.struct "Point") (.counted "count")⟩]
  constants := []
  fixedSize := none
  minSize := 8

/-- The structure of points. -/
def pointStructure : Structure where
  name := "Point"
  fields := [⟨"axes", .repeated (.scalar .two) (.fixed 3)⟩]
  constants := []
  fixedSize := some 6
  minSize := 6

/-- The schema of routes. -/
def routeSchema : Schema := ⟨[routeStructure, pointStructure], []⟩

/-- A point. -/
def point : Record := [("axes", .list [.uint 1, .uint 2, .uint 3])]

/-- Assignments to a route, of which the second is refused because it is to a derived field, and the
third because two coordinates are missing. -/
def routeCalls : List (String × Value) := [
  ("points", .list [.record point]),
  ("count", .uint 5),
  ("start", .record [("axes", .list [.uint 1])])]

theorem resolve_routeDocument : Schema.resolve routeDocument = .ok routeSchema := by
  decide +kernel

/-- A point holds no other values. -/
theorem tidy_point {q : String × Record} (hq : routeSchema.Reaches ("Point", point) q) :
    routeSchema.Tidy q.1 q.2 := by
  rcases hq.cases_head with rfl | ⟨p, ⟨s, hs, f, hf, hp⟩, -⟩
  · refine ⟨by decide, fun s hs n hn => ?_⟩
    cases hs.symm.trans (show routeSchema.structure? "Point" = some pointStructure from rfl)
    cases List.mem_singleton.1 hn
    exact ⟨_, List.mem_cons_self, rfl, rfl⟩
  · cases hs.symm.trans (show routeSchema.structure? "Point" = some pointStructure from rfl)
    cases List.mem_singleton.1 hf
    cases hp

/-- A route that was put together has a gap if its starting point was never assigned. The points of
one that is encoded may be assigned to any other. -/
theorem setting_agrees_route :
    routeSchema.Gap "Route" (routeCalls.foldl (routeSchema.assign "Route") [])
        (.malformed (.itemCount "Point" "axes" 0 3)) ∧
      ∀ target, routeSchema.set "Route" target "points" (.list [.record point]) =
        .ok (target.insert "points" (.list [.record point])) := by
  have hs : routeSchema.structure? "Route" = some routeStructure := rfl
  obtain ⟨hsound, hcomplete⟩ := Schema.setting_agrees resolve_routeDocument hs
  constructor
  · have hsize : ¬routeSchema.Oversized "Route" [("points", .list [.record point])] := by
      have hmeasured :
          routeSchema.encodedSize "Route" [("points", .list [.record point])] = .ok 14 := rfl
      rintro (hover | ⟨n, hn, hlarge⟩)
      · cases hmeasured.symm.trans hover
      · cases hmeasured.symm.trans hn
        exact absurd hlarge (by decide)
    exact (hsound routeCalls _ rfl hsize).2 _ (by decide +kernel)
  · have hencode : routeSchema.encode "Route"
        [("points", .list [.record point]), ("start", .record point)] =
          .ok [1, 0, 2, 0, 3, 0, 1, 0, 1, 0, 2, 0, 3, 0] := by
      decide +kernel
    refine hcomplete _ _ hencode ⟨"points", .repeated (.struct "Point") (.counted "count")⟩
      (by decide) rfl (.list [.record point]) rfl fun p hp q hq => ?_
    obtain ⟨type, r, helement, hr, rfl⟩ := FieldKind.leadsTo_repeated.1 hp
    cases helement
    cases List.mem_singleton.1 hr
    exact tidy_point hq

end WireSchema
