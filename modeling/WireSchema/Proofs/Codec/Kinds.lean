import WireSchema.Proofs.Codec.Passes

/-!
# Values of the right kinds

A value is of the right kinds if every field that it holds has the kind of content that the layout
demands, and so it is with all values in it. Nothing is asked of the size of a number, of a byte
string or of a group. Such a value may still not be encoded, but only because something in it does
not fit; it is never taken for something else.

* `FieldKind.Takes`: the content of the kind that a field demands.
* `Schema.Kinded`: a value of the right kinds, at every depth.
* `Error.Misfit`: the errors for what does not fit.
* `Schema.sizable_of_kinded`: a value of the right kinds can be measured, unless it is too large.
* `Schema.fieldSize_le_of_kinded`: so can its fields, which are no larger than it is.
* `Schema.misfit_of_encode`: it is refused only for a misfit, unless it is too large for a buffer.
-/

namespace WireSchema

theorem Width.encode_eq_error_iff {w : Width} {n : Nat} {e : Error} :
    w.encode n = .error e ↔ w.maxValue < n ∧ e = .overflow n w.bytes := by
  by_cases h : n ≤ w.maxValue
  · simp [Width.encode, h]
  · simp [Width.encode, h, Nat.lt_of_not_le h, eq_comm]

/-! ### Kinds of content -/

/-- The content is of the kind that a field demands. -/
inductive FieldKind.Takes : FieldKind → Value → Prop
  | uint {width : Width} {n : UInt64} : Takes (.scalar width) (.uint n)
  | fixedBytes {size : Nat} {data : Bytes} : Takes (.fixedBlob size) (.bytes data)
  | bytes {sizeField : String} {data : Bytes} : Takes (.variableBlob sizeField) (.bytes data)
  | record {type : String} {r : Record} : Takes (.embedded type) (.record r)
  | list {item : Element} {cardinality : Cardinality} {items : List Value} :
    (∀ x ∈ items, Takes item.single x) → Takes (.repeated item cardinality) (.list items)
  /-- Nothing is demanded of what stands under the name of a derived field. -/
  | derived {width : Width} {content : String} {rule : Derivation} {x : Value} :
    Takes (.derived width content rule) x

/-- What is held for a field is of the kind that the field demands, if anything is. -/
def FieldKind.Bears (kind : FieldKind) (content : Option Value) : Prop :=
  ∀ x, content = some x → kind.Takes x

/-- A group of fixed length that is held has all of its items. -/
def FieldKind.Complete (kind : FieldKind) (content : Option Value) : Prop :=
  ∀ item count items, kind = .repeated item (.fixed count) → content = some (.list items) →
    items.length = count

/-- A value and all values in it hold content of the kinds that their fields demand. -/
def Schema.Kinded (schema : Schema) (name : String) (v : Record) : Prop :=
  ∀ q, schema.Reaches (name, v) q → ∀ s, schema.structure? q.1 = some s →
    ∀ f ∈ s.fields, f.kind.Bears (q.2.get? f.name)

/-- The error is that something is of the right kind, but does not fit: a number is too large for
its width, a byte string is too long for its field, or a group of fixed length has another number of
items. -/
inductive Error.Misfit : Error → Prop
  | overflow {n : Nat} {width : Width} : width.maxValue < n → Misfit (.overflow n width.bytes)
  | tooLarge {length size : Nat} : size < length → Misfit (.tooLarge length size)
  | itemCount {owner field : String} {found expected : Nat} :
    found ≠ expected → Misfit (.malformed (.itemCount owner field found expected))

namespace FieldKind.Bears

variable {content : Option Value} (s : Structure) (f : Field)

theorem scalar {width : Width} (h : (FieldKind.scalar width).Bears content) :
    ∃ n, Encode.scalarContent s f content = .ok n := by
  cases content with
  | none => exact ⟨0, rfl⟩
  | some x =>
    cases h x rfl with
    | uint => exact ⟨_, rfl⟩

theorem fixedBlob {size : Nat} (h : (FieldKind.fixedBlob size).Bears content) :
    ∃ data, Encode.bytesContent s f content = .ok data := by
  cases content with
  | none => exact ⟨[], rfl⟩
  | some x =>
    cases h x rfl with
    | fixedBytes => exact ⟨_, rfl⟩

theorem variableBlob {sizeField : String} (h : (FieldKind.variableBlob sizeField).Bears content) :
    ∃ data, Encode.bytesContent s f content = .ok data := by
  cases content with
  | none => exact ⟨[], rfl⟩
  | some x =>
    cases h x rfl with
    | bytes => exact ⟨_, rfl⟩

theorem embedded {type : String} (h : (FieldKind.embedded type).Bears content) :
    ∃ r, Encode.recordContent s f content = .ok r ∧
      (FieldKind.embedded type).LeadsTo content (type, r) := by
  cases content with
  | none => exact ⟨[], rfl, .missing⟩
  | some x =>
    cases h x rfl with
    | record => exact ⟨_, rfl, .embedded⟩

theorem repeated {item : Element} {cardinality : Cardinality}
    (h : (FieldKind.repeated item cardinality).Bears content) :
    ∃ items, Encode.listContent s f content = .ok items ∧ (∀ x ∈ items, item.single.Takes x) ∧
      (content = none ∧ items = [] ∨ content = some (.list items)) := by
  cases content with
  | none => exact ⟨[], rfl, List.forall_mem_nil _, .inl ⟨rfl, rfl⟩⟩
  | some x =>
    cases h x rfl with
    | list hitems => exact ⟨_, rfl, hitems, .inr rfl⟩

end FieldKind.Bears

/-- A group that some field governs is not of fixed length. -/
theorem FieldKind.complete_of_governor {kind : FieldKind} {governor : String × Derivation}
    (h : kind.governor? = some governor) (content : Option Value) : kind.Complete content := by
  rintro item count items rfl
  cases h

namespace Encode

/-! ### Measuring -/

/-- What is measured has a size, if not one that is too large. -/
def Sizable (measured : Except Error Nat) : Prop :=
  (∃ n, measured = .ok n) ∨ measured = .error (.abort .sizeOverflow)

namespace Sizable

theorem ok (n : Nat) : Sizable (.ok n) := .inl ⟨n, rfl⟩

theorem addSizes {α : Type} {size : α → Except Error Nat} {xs : List α}
    (h : ∀ x ∈ xs, Sizable (size x)) (total : Nat) : Sizable (addSizes size total xs) := by
  induction xs generalizing total with
  | nil => exact ok total
  | cons x xs ih =>
    rw [WireSchema.addSizes]
    rcases h x List.mem_cons_self with ⟨n, hn⟩ | hover
    · simp only [hn, bind, Except.bind]
      by_cases hsum : total + n < 2 ^ 64
      · rw [addSize_eq_ok_iff.2 ⟨hsum, rfl⟩]
        exact ih (fun y hy => h y (List.mem_cons_of_mem _ hy)) _
      · exact .inr (by rw [addSize, if_neg hsum])
    · exact .inr (by simp only [hover, bind, Except.bind])

end Sizable

/-- Each of the sizes that are added up is no larger than their sum. -/
theorem le_of_addSizes {α : Type} {size : α → Except Error Nat} {xs : List α} {total n : Nat}
    (h : addSizes size total xs = .ok n) :
    total ≤ n ∧ ∀ x ∈ xs, ∃ m, size x = .ok m ∧ m ≤ n := by
  induction xs generalizing total with
  | nil =>
    cases h
    exact ⟨Nat.le_refl _, List.forall_mem_nil _⟩
  | cons x xs ih =>
    rw [addSizes] at h
    obtain ⟨m, hm, h⟩ := bind_eq_ok_iff.1 h
    obtain ⟨sum, hsum, h⟩ := bind_eq_ok_iff.1 h
    obtain ⟨-, rfl⟩ := addSize_eq_ok_iff.1 hsum
    obtain ⟨hle, hxs⟩ := ih h
    exact ⟨by omega, List.forall_mem_cons.2 ⟨⟨m, hm, by omega⟩, hxs⟩⟩

/-- Sizes that are all the same add up to a multiple. -/
theorem addSizes_same {α : Type} {size : α → Except Error Nat} {xs : List α} {k total : Nat}
    (h : ∀ x ∈ xs, size x = .ok k) (hsum : total + k * xs.length < 2 ^ 64) :
    addSizes size total xs = .ok (total + k * xs.length) := by
  induction xs generalizing total with
  | nil => rfl
  | cons x xs ih =>
    rw [List.length_cons, Nat.mul_succ] at hsum ⊢
    have hadd : addSize total k = .ok (total + k) := addSize_eq_ok_iff.2 ⟨by omega, rfl⟩
    have hrest : addSizes size (total + k) xs = .ok (total + k + k * xs.length) :=
      ih (fun y hy => h y (List.mem_cons_of_mem _ hy)) (by omega)
    rw [addSizes]
    simp only [h x List.mem_cons_self, hadd, bind, Except.bind, hrest]
    congr 1
    omega

section Measure

variable {nested : String → Encoder} {s : Structure} {f : Field} {content : Option Value}

/-- Content of the right kind can be measured, and so can the lack of it. -/
theorem sizable_fieldSize
    (hn : ∀ p, f.kind.LeadsTo content p → Sizable ((nested p.1).size p.2))
    (hbears : f.kind.Bears content) : Sizable (fieldSize nested s f content) := by
  cases hk : f.kind with
  | scalar width => simp only [fieldSize, hk]; exact .ok _
  | fixedBlob size => simp only [fieldSize, hk]; exact .ok _
  | derived width _ _ => simp only [fieldSize, hk]; exact .ok _
  | variableBlob sizeField =>
    rw [hk] at hbears
    obtain ⟨data, hdata⟩ := hbears.variableBlob s f
    simp only [fieldSize, hk, hdata]
    exact .ok _
  | embedded type =>
    rw [hk] at hn hbears
    obtain ⟨r, hr, hleads⟩ := hbears.embedded s f
    simp only [fieldSize, hk, hr]
    exact hn _ hleads
  | repeated item cardinality =>
    rw [hk] at hn hbears
    obtain ⟨items, hitems, htakes, hget⟩ := hbears.repeated s f
    simp only [fieldSize, hk, hitems]
    refine .addSizes (fun x hx => ?_) 0
    have hx' := htakes x hx
    cases item with
    | scalar width =>
      cases hx'
      exact .ok _
    | blob size =>
      cases hx'
      exact .ok _
    | struct type =>
      cases hx'
      obtain ⟨-, rfl⟩ | rfl := hget
      · cases hx
      · exact hn _ (.item hx)

/-- Where the layout fixes the size of a field, content of the right kind is no larger, if a group
has all of its items. -/
theorem fieldSize_le_fixedSize {below : List Structure}
    (hn : ∀ type k, (Element.struct type).fixedSize? below = some k →
      ∀ r, (nested type).size r = .ok k)
    (hbears : f.kind.Bears content) (hcomplete : f.kind.Complete content) {k : Nat}
    (hfixed : f.kind.fixedSize? below = some k) (hlt : k < 2 ^ 64) :
    ∃ m, fieldSize nested s f content = .ok m ∧ m ≤ k := by
  cases hk : f.kind with
  | scalar width =>
    rw [hk] at hfixed
    cases hfixed
    exact ⟨_, by simp only [fieldSize, hk], Nat.le_refl _⟩
  | fixedBlob size =>
    rw [hk] at hfixed
    cases hfixed
    exact ⟨_, by simp only [fieldSize, hk], Nat.le_refl _⟩
  | derived width _ _ =>
    rw [hk] at hfixed
    cases hfixed
    exact ⟨_, by simp only [fieldSize, hk], Nat.le_refl _⟩
  | variableBlob sizeField =>
    rw [hk] at hfixed
    cases hfixed
  | embedded type =>
    rw [hk] at hfixed hbears
    obtain ⟨r, hr, -⟩ := hbears.embedded s f
    refine ⟨k, ?_, Nat.le_refl k⟩
    simp only [fieldSize, hk, hr]
    exact hn type k hfixed r
  | repeated item cardinality =>
    rw [hk] at hfixed hbears hcomplete
    obtain ⟨items, hitems, htakes, hget⟩ := hbears.repeated s f
    simp only [fieldSize, hk, hitems]
    cases cardinality with
    | counted sizeField => cases hfixed
    | budgeted sizeField => cases hfixed
    | fixed count =>
      obtain ⟨size, hsize, rfl⟩ := Option.map_eq_some_iff.1 hfixed
      have hsame : ∀ x ∈ items, itemSize nested s f item x = .ok size := by
        intro x hx
        have hx' := htakes x hx
        cases item with
        | struct type =>
          cases hx'
          exact hn type size hsize _
        | scalar width =>
          cases hx'
          cases hsize
          rfl
        | blob size =>
          cases hx'
          cases hsize
          rfl
      obtain ⟨-, rfl⟩ | hget := hget
      · exact ⟨0, rfl, Nat.zero_le _⟩
      · rw [← hcomplete item count items rfl hget] at hlt ⊢
        exact ⟨0 + size * items.length, addSizes_same hsame (by omega), by omega⟩

/-- An item of a group is no larger than the group. -/
theorem itemSize_le_of_fieldSize {item : Element} {cardinality : Cardinality} {items : List Value}
    {m : Nat} (hk : f.kind = .repeated item cardinality)
    (hitems : listContent s f content = .ok items) (hm : fieldSize nested s f content = .ok m)
    {x : Value} (hx : x ∈ items) : ∃ k, itemSize nested s f item x = .ok k ∧ k ≤ m := by
  simp only [fieldSize, hk, hitems] at hm
  exact (le_of_addSizes hm).2 x hx

/-- What a field holds is no larger than the field. -/
theorem size_le_of_leadsTo {m : Nat} {p : String × Record}
    (hm : fieldSize nested s f content = .ok m) (hp : f.kind.LeadsTo content p) :
    ∃ k, (nested p.1).size p.2 = .ok k ∧ k ≤ m := by
  generalize hk : f.kind = kind at hp
  cases hp with
  | embedded =>
    simp only [fieldSize, hk] at hm
    exact ⟨m, hm, Nat.le_refl m⟩
  | missing =>
    simp only [fieldSize, hk] at hm
    exact ⟨m, hm, Nat.le_refl m⟩
  | item hmem =>
    simp only [fieldSize, hk] at hm
    exact (le_of_addSizes hm).2 _ hmem

end Measure

/-! ### Writing -/

section Write

variable {nested : String → Encoder} {s : Structure} {r : Record} {f : Field} {m : Nat} {e : Error}

theorem exists_of_checkCount {cardinality : Cardinality} {items : List Value}
    (he : checkCount s f cardinality items = .error e) :
    ∃ count, cardinality = .fixed count ∧ items.length ≠ count ∧
      e = .malformed (.itemCount s.name f.name items.length count) := by
  cases cardinality with
  | fixed count =>
    by_cases hlength : items.length = count
    · simp only [checkCount, if_pos hlength] at he
      cases he
    · simp only [checkCount, if_neg hlength] at he
      cases he
      exact ⟨count, rfl, hlength, rfl⟩
  | counted sizeField => cases he
  | budgeted sizeField => cases he

/-- A byte string does not fit a field only if it is too long. -/
theorem misfit_of_fit {data : Bytes} {size : Nat} (hsize : size < 2 ^ 63)
    (he : fit data size = .error e) : e.Misfit := by
  by_cases hlength : data.length ≤ size
  · have hok := fit_eq_ok_iff.2 ⟨hlength, by omega, rfl⟩
    cases hok.symm.trans he
  · rw [fit, checkLength, if_neg hlength] at he
    cases he
    exact .tooLarge (Nat.lt_of_not_le hlength)

theorem misfit_of_encode {width : Width} {n : Nat} (he : width.encode n = .error e) : e.Misfit := by
  obtain ⟨hlarge, rfl⟩ := Width.encode_eq_error_iff.1 he
  exact .overflow hlarge

/-- An item of the right kind is refused for a misfit, or for the value that it holds. -/
theorem misfit_of_item {item : Element} {x : Value} (htakes : item.single.Takes x)
    (hm : itemSize nested s f item x = .ok m) (hlt : m < 2 ^ 63)
    (he : Encode.item nested s f item x = .error e) :
    e.Misfit ∨ ∃ type inner, item = .struct type ∧ x = .record inner ∧
      (nested type).write inner = .error e := by
  cases item with
  | struct type =>
    cases htakes
    exact .inr ⟨type, _, rfl, rfl, he⟩
  | scalar width =>
    cases htakes
    exact .inl (misfit_of_encode he)
  | blob size =>
    cases htakes
    cases hm
    exact .inl (misfit_of_fit hlt he)

/-- The error is a misfit, or that of a value that the field holds and that is not too large. -/
def Misfits (nested : String → Encoder) (r : Record) (f : Field) (e : Error) : Prop :=
  e.Misfit ∨ ∃ p k, f.kind.LeadsTo (r.get? f.name) p ∧ (nested p.1).size p.2 = .ok k ∧
    k < 2 ^ 63 ∧ (nested p.1).write p.2 = .error e

/-- A field that can be measured if its group is complete, and is not too large then. -/
def Bounded (nested : String → Encoder) (s : Structure) (r : Record) (f : Field) : Prop :=
  f.kind.Complete (r.get? f.name) →
    ∃ m, fieldSize nested s f (r.get? f.name) = .ok m ∧ m < 2 ^ 63

/-- A group is refused for the number of its items, or for one of them after they were counted. -/
theorem error_of_repeated {item : Element} {cardinality : Cardinality} {items : List Value}
    (hk : f.kind = .repeated item cardinality)
    (hitems : listContent s f (r.get? f.name) = .ok items)
    (he : fieldBytes nested s r f = .error e) :
    (∃ count, cardinality = .fixed count ∧ items.length ≠ count ∧
        e = .malformed (.itemCount s.name f.name items.length count)) ∨
      checkCount s f cardinality items = .ok () ∧
        ∃ x ∈ items, Encode.item nested s f item x = .error e := by
  have hrest : (checkCount s f cardinality items >>= fun _ =>
      items.mapM (Encode.item nested s f item) >>= fun chunks => pure chunks.flatten) =
        .error e := by
    simp only [fieldBytes, hk, hitems] at he
    exact he
  rcases bind_eq_error_iff.1 hrest with hcheck | ⟨_, hcount, hrest⟩
  · exact .inl (exists_of_checkCount hcheck)
  rcases bind_eq_error_iff.1 hrest with hmap | ⟨_, -, hpure⟩
  · exact .inr ⟨hcount, exists_of_mapM_eq_error hmap⟩
  · cases hpure

/-- A group of the right kind is refused for a misfit, or for a value that it holds. -/
theorem misfits_of_repeated {item : Element} {cardinality : Cardinality}
    (hk : f.kind = .repeated item cardinality) (hbears : f.kind.Bears (r.get? f.name))
    (hbounded : Bounded nested s r f) (he : fieldBytes nested s r f = .error e) :
    Misfits nested r f e := by
  rw [hk] at hbears
  obtain ⟨items, hitems, htakes, hget⟩ := hbears.repeated s f
  rcases error_of_repeated hk hitems he with ⟨count, -, hne, rfl⟩ | ⟨hcount, x, hx, hitem⟩
  · exact .inl (.itemCount hne)
  have hget : r.get? f.name = some (.list items) := by
    rcases hget with ⟨-, rfl⟩ | hget
    · cases hx
    · exact hget
  -- the items were counted before, so the group is complete and its items are measured
  have hcomplete : f.kind.Complete (r.get? f.name) := by
    rw [hk, hget]
    rintro _ count _ ⟨⟩ ⟨⟩
    exact checkCount_eq_ok_iff.1 hcount count rfl
  obtain ⟨m, hm, hlt⟩ := hbounded hcomplete
  obtain ⟨k, hsize, hle⟩ := itemSize_le_of_fieldSize hk hitems hm hx
  rcases misfit_of_item (htakes x hx) hsize (by omega) hitem with
    hmisfit | ⟨type, inner, rfl, rfl, hwrite⟩
  · exact .inl hmisfit
  · refine .inr ⟨(type, inner), k, ?_, hsize, by omega, hwrite⟩
    rw [hk, hget]
    exact .item hx

/-- A field of the right kind is refused for a misfit, or for a value that it holds. -/
theorem misfits_of_fieldBytes (hbears : f.kind.Bears (r.get? f.name))
    (hbounded : Bounded nested s r f)
    (hderive : ∀ width content rule, f.kind = .derived width content rule →
      ∃ n, derive nested s r content rule = .ok n)
    (he : fieldBytes nested s r f = .error e) : Misfits nested r f e := by
  cases hk : f.kind with
  | scalar width =>
    rw [hk] at hbears
    obtain ⟨n, hn⟩ := hbears.scalar s f
    simp only [fieldBytes, hk, hn] at he
    exact .inl (misfit_of_encode he)
  | fixedBlob size =>
    have hsize : size < 2 ^ 63 := by
      obtain ⟨m, hm, hlt⟩ := hbounded (by rw [hk]; rintro _ _ _ ⟨⟩)
      simp only [fieldSize, hk] at hm
      cases hm
      exact hlt
    rw [hk] at hbears
    obtain ⟨data, hdata⟩ := hbears.fixedBlob s f
    simp only [fieldBytes, hk, hdata] at he
    exact .inl (misfit_of_fit hsize he)
  | variableBlob sizeField =>
    rw [hk] at hbears
    obtain ⟨data, hdata⟩ := hbears.variableBlob s f
    simp only [fieldBytes, hk, hdata] at he
    cases he
  | embedded type =>
    obtain ⟨m, hm, hlt⟩ := hbounded (by rw [hk]; rintro _ _ _ ⟨⟩)
    rw [hk] at hbears
    obtain ⟨inner, hinner, hleads⟩ := hbears.embedded s f
    rw [← hk] at hleads
    obtain ⟨k, hsize, hle⟩ := size_le_of_leadsTo hm hleads
    simp only [fieldBytes, hk, hinner] at he
    exact .inr ⟨_, k, hleads, hsize, by omega, he⟩
  | repeated item cardinality => exact misfits_of_repeated hk hbears hbounded he
  | derived width content rule =>
    obtain ⟨n, hn⟩ := hderive width content rule hk
    simp only [fieldBytes, hk, hn] at he
    exact .inl (misfit_of_encode he)

end Write

end Encode

/-- The terms of a sum that may be missing are there if the sum is, and no larger. -/
theorem le_sum_of_mapM_eq_some {α : Type} {f : α → Option Nat} {xs : List α} {sizes : List Nat}
    (h : xs.mapM f = some sizes) {x : α} (hx : x ∈ xs) : ∃ k, f x = some k ∧ k ≤ sizes.sum := by
  induction xs generalizing sizes with
  | nil => cases hx
  | cons y ys ih =>
    rw [List.mapM_cons] at h
    obtain ⟨first, hfirst, h⟩ := Option.bind_eq_some_iff.1 h
    obtain ⟨others, hothers, h⟩ := Option.bind_eq_some_iff.1 h
    cases h
    rw [List.sum_cons]
    rcases List.mem_cons.1 hx with rfl | hx
    · exact ⟨first, hfirst, Nat.le_add_right _ _⟩
    · obtain ⟨k, hk, hle⟩ := ih hothers hx
      exact ⟨k, hk, by omega⟩

namespace Schema

variable {schema : Schema} {name : String} {s : Structure} {r : Record} {n : Nat}

namespace Kinded

variable (hr : schema.Kinded name r)
include hr

/-- What is held for a field is of the right kind. -/
theorem bears (hs : schema.structure? name = some s) {f : Field} (hf : f ∈ s.fields) :
    f.kind.Bears (r.get? f.name) :=
  hr (name, r) .refl s hs f hf

/-- The values that are held are of the right kinds, too. -/
theorem of_leadsTo {q : String × Record} (hq : schema.LeadsTo (name, r) q) :
    schema.Kinded q.1 q.2 :=
  fun q' hq' => hr q' (.head hq hq')

end Kinded

/-- The values of a structure of fixed size are all measured to be of this size. -/
theorem encodedSize_of_fixedSize? {schema : Schema} (h : Layered schema.structures)
    {type : String} {k : Nat} (hk : (Element.struct type).fixedSize? schema.structures = some k)
    (r : Record) : schema.encodedSize type r = .ok k := by
  obtain ⟨t, ht, hfixed⟩ := Option.bind_eq_some_iff.1 hk
  rw [encodedSize_of_find h ht, Encode.size, hfixed]

variable (h : Layered schema.structures) (hs : schema.structure? name = some s)
  (hr : schema.Kinded name r)
include h hs hr

/-- A value of the right kinds can be measured, unless it is too large. -/
theorem sizable_of_kinded : Encode.Sizable (schema.encodedSize name r) := by
  refine h.induction_of_found (P := fun name _ => ∀ r, schema.Kinded name r →
    Encode.Sizable (schema.encodedSize name r)) (fun name s hs ih r hr => ?_) hs r hr
  rw [encodedSize_of_find h hs]
  unfold Encode.size
  cases s.fixedSize with
  | some n => exact .ok n
  | none =>
    refine .addSizes (fun f hf => Encode.sizable_fieldSize (fun p hp => ?_) (hr.bears hs hf)) 0
    obtain ⟨t, -, hsizable⟩ := ih f hf p.1 hp.mem_references
    exact hsizable p.2 (hr.of_leadsTo ⟨s, hs, f, hf, hp⟩)

/-- The fields of a value of the right kinds can be measured if they are complete, and are no larger
than the whole. -/
theorem fieldSize_le_of_kinded (hsize : schema.encodedSize name r = .ok n) {f : Field}
    (hf : f ∈ s.fields) (hcomplete : f.kind.Complete (r.get? f.name)) :
    ∃ m, Encode.fieldSize schema.encoder s f (r.get? f.name) = .ok m ∧ m ≤ n := by
  rw [encodedSize_of_find h hs] at hsize
  unfold Encode.size at hsize
  cases hfixed : s.fixedSize with
  | none =>
    rw [hfixed] at hsize
    exact (Encode.le_of_addSizes hsize).2 f hf
  | some k =>
    rw [hfixed] at hsize
    cases hsize
    rw [(sound_of_find h hs).fixedSize_eq] at hfixed
    obtain ⟨sizes, hsizes, hlt, rfl⟩ := fixedSizeOf_eq_some_iff.1 hfixed
    obtain ⟨m, hm, hle⟩ := le_sum_of_mapM_eq_some hsizes hf
    have hnested : ∀ type k, (Element.struct type).fixedSize? schema.structures = some k →
        ∀ r, (schema.encoder type).size r = .ok k := fun type k hk r =>
      encodedSize_of_fixedSize? h hk r
    obtain ⟨size, hfieldSize, hsize⟩ :=
      Encode.fieldSize_le_fixedSize (s := s) hnested (hr.bears hs hf) hcomplete hm (by omega)
    exact ⟨size, hfieldSize, by omega⟩

/-- The numbers of a value of the right kinds can be derived. -/
theorem exists_derive_of_kinded (hsize : schema.encodedSize name r = .ok n) {d : Field}
    (hd : d ∈ s.fields) {width : Width} {content : String} {rule : Derivation}
    (hk : d.kind = .derived width content rule) :
    ∃ m, Encode.derive schema.encoder s r content rule = .ok m := by
  have hsound := sound_of_find h hs
  obtain ⟨c, hdc, rfl, hgovernor⟩ := hsound.wired.governs d hd width content rule hk
  have hc : c ∈ s.fields := hdc.subset (by simp)
  obtain ⟨m, hm, -⟩ :=
    fieldSize_le_of_kinded h hs hr hsize hc (FieldKind.complete_of_governor hgovernor _)
  cases rule with
  | groupSize => exact ⟨m, (Encode.derive_groupSize hsound hc).trans hm⟩
  | byteLength =>
    simp only [Encode.fieldSize, FieldKind.eq_variableBlob hgovernor] at hm
    obtain ⟨data, hdata, -⟩ := bind_eq_ok_iff.1 hm
    exact ⟨_, (Encode.derive_byteLength hsound hc).2 ⟨data, hdata, rfl⟩⟩
  | itemCount =>
    obtain ⟨element, hk⟩ := FieldKind.exists_repeated hgovernor
    simp only [Encode.fieldSize, hk] at hm
    obtain ⟨items, hitems, -⟩ := bind_eq_ok_iff.1 hm
    exact ⟨_, (Encode.derive_itemCount hsound hc).2 ⟨items, hitems, rfl⟩⟩

/-- A value of the right kinds that is not too large is refused only for a misfit. -/
theorem misfit_of_write {e : Error} (hsize : schema.encodedSize name r = .ok n) (hlt : n < 2 ^ 63)
    (he : schema.write name r = .error e) : e.Misfit := by
  refine h.induction_of_found
    (P := fun name _ => ∀ r n, schema.Kinded name r → schema.encodedSize name r = .ok n →
      n < 2 ^ 63 → schema.write name r = .error e → e.Misfit)
    (fun name s hs ih r n hr hsize hlt he => ?_) hs r n hr hsize hlt he
  rw [write_of_find h hs] at he
  rcases bind_eq_error_iff.1 he with hmap | ⟨_, -, hpure⟩
  · obtain ⟨f, hf, hfield⟩ := exists_of_mapM_eq_error hmap
    have hbounded : Encode.Bounded schema.encoder s r f := by
      intro hcomplete
      obtain ⟨m, hm, hle⟩ := fieldSize_le_of_kinded h hs hr hsize hf hcomplete
      exact ⟨m, hm, by omega⟩
    rcases Encode.misfits_of_fieldBytes (hr.bears hs hf) hbounded
      (fun _ _ _ hk => exists_derive_of_kinded h hs hr hsize hf hk) hfield with
      hmisfit | ⟨p, k, hp, hk, hk', hwrite⟩
    · exact hmisfit
    · obtain ⟨t, -, hmisfit⟩ := ih f hf p.1 hp.mem_references
      exact hmisfit p.2 k (hr.of_leadsTo ⟨s, hs, f, hf, hp⟩) hk hk' hwrite
  · cases hpure

/-- A value of the right kinds is refused only for a misfit, or because it is too large for a
buffer. -/
theorem misfit_of_encode {e : Error} (he : schema.encode name r = .error e) :
    e.Misfit ∨ schema.Oversized name r ∧ ∃ fault, e = .abort fault := by
  rcases bind_eq_error_iff.1 he with hmeasure | ⟨n, hn, he⟩
  · rcases sizable_of_kinded h hs hr with ⟨n, hn⟩ | hover
    · cases hmeasure.symm.trans hn
    · cases hmeasure.symm.trans hover
      exact .inr ⟨.inl hover, _, rfl⟩
  rcases bind_eq_error_iff.1 he with hbuffer | ⟨_, hbuffer, he⟩
  · by_cases hlt : n < 2 ^ 63
    · cases hbuffer.symm.trans (checkBuffer_eq_ok_iff.2 hlt)
    · rw [checkBuffer, if_neg hlt] at hbuffer
      cases hbuffer
      exact .inr ⟨.inr ⟨n, hn, Nat.le_of_not_lt hlt⟩, _, rfl⟩
  rcases bind_eq_error_iff.1 he with hw | ⟨bs, hw, he⟩
  · exact .inl (misfit_of_write h hs hr hn (checkBuffer_eq_ok_iff.1 hbuffer) hw)
  -- the passes agree, so what is written has the size that was measured
  · cases he.symm.trans (checkMeasured_of_write h hn hw)

end Schema

end WireSchema
