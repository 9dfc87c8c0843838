import WireSchema.Proofs.Codec.Shortest
import WireSchema.Proofs.Resolve.Machine

/-!
# Exact sizes

The size of a layout and the size of a value are sums and products of numbers, and they may be
larger than any machine word. They are worked out here without bound. What a machine makes of them
is then said in one line each: the size of a layout is known only if it is exact, and measuring a
value comes to its exact size, or to an overflow if that is no machine word.

* `Schema.exactSize?`: the exact size of all values of a structure.
* `Schema.total`: the exact size of one value. It is what all values have in common where there is
  such a size (`Schema.total_of_exactSize?`).
* `Schema.WellKinded`: the values that can be measured field by field.
* `Schema.encodedSize_of_wellKinded`, `Schema.derived_of_wellKinded`: measuring a value and a group.
* `sizes_exact`: what this comes to for a document.
-/

namespace WireSchema

/-- The exact size, unless it is no machine word. -/
def inWord (total : Nat) : Except Error Nat :=
  if total < 2 ^ 64 then .ok total else .error (.abort .sizeOverflow)

/-! ### The exact size of a layout -/

/-- The exact size of all items, given those of the structures. -/
def Element.exactSize? (nested : String → Option Nat) : Element → Option Nat
  | struct type => nested type
  | scalar width => some width.bytes
  | blob size => some size

/-- The exact size of all contents of a field, given those of the structures. -/
def FieldKind.exactSize? (nested : String → Option Nat) : FieldKind → Option Nat
  | scalar width => some width.bytes
  | derived width _ _ => some width.bytes
  | fixedBlob size => some size
  | variableBlob _ => none
  | embedded type => nested type
  | repeated item (.fixed count) => (item.exactSize? nested).map (· * count)
  | repeated _ _ => none

/-- The exact size of all values of a structure: the sum of the sizes of its fields. -/
def Structure.exactSize? (nested : String → Option Nat) (s : Structure) : Option Nat :=
  (s.fields.mapM fun f : Field => f.kind.exactSize? nested).map List.sum

/-- The exact size of all values of the structure `name`, if its fields are all of fixed size. -/
def Schema.exactSize? (schema : Schema) (name : String) : Option Nat :=
  interpret (fun _ => none) Structure.exactSize? schema.structures name

/-! ### The exact size of a value -/

/-- The exact size of an item, given those of the values of structures. -/
def Element.total (nested : String → Record → Nat) : Element → Value → Nat
  | struct type, .record r => nested type r
  | struct _, _ => 0
  | scalar width, _ => width.bytes
  | blob size, _ => size

/-- The exact size of the content of a field, given those of the values of structures. -/
def FieldKind.total (nested : String → Record → Nat) : FieldKind → Value → Nat
  | scalar width, _ => width.bytes
  | derived width _ _, _ => width.bytes
  | fixedBlob size, _ => size
  | variableBlob _, .bytes data => data.length
  | embedded type, .record r => nested type r
  | repeated item _, .list items => (items.map (item.total nested)).sum
  | _, _ => 0

/-- The exact size of a value of a structure: the sum of the sizes of its fields. -/
def Structure.total (nested : String → Record → Nat) (s : Structure) (r : Record) : Nat :=
  (s.fields.map fun f => f.kind.total nested (f.content r)).sum

/-- The exact size of a value as structure `name`. -/
def Schema.total (schema : Schema) (name : String) : Record → Nat :=
  interpret (fun _ _ => 0) Structure.total schema.structures name

/-! ### Content of the kind that is demanded -/

/-- The value is an item of the right kind, given which values of structures are. -/
inductive Element.OfKind (nested : String → Record → Prop) : Element → Value → Prop
  | record {type : String} {r : Record} : nested type r → OfKind nested (.struct type) (.record r)
  | uint {width : Width} {n : UInt64} : OfKind nested (.scalar width) (.uint n)
  | bytes {size : Nat} {data : Bytes} : OfKind nested (.blob size) (.bytes data)

/-- The value is content of the right kind, and groups of fixed length are complete. -/
inductive FieldKind.OfKind (nested : String → Record → Prop) : FieldKind → Value → Prop
  | uint {width : Width} {n : UInt64} : OfKind nested (.scalar width) (.uint n)
  | fixedBytes {size : Nat} {data : Bytes} : OfKind nested (.fixedBlob size) (.bytes data)
  | bytes {sizeField : String} {data : Bytes} :
    OfKind nested (.variableBlob sizeField) (.bytes data)
  | record {type : String} {r : Record} : nested type r → OfKind nested (.embedded type) (.record r)
  | list {item : Element} {cardinality : Cardinality} {items : List Value} :
    (∀ x ∈ items, item.OfKind nested x) →
    (∀ count, cardinality = .fixed count → items.length = count) →
    OfKind nested (.repeated item cardinality) (.list items)
  /-- Nothing is demanded of what stands under the name of a derived field. -/
  | derived {width : Width} {content : String} {rule : Derivation} {x : Value} :
    OfKind nested (.derived width content rule) x

/-- All fields hold content of the right kind, where an absent one holds zero. -/
def Structure.WellKinded (nested : String → Record → Prop) (s : Structure) (r : Record) : Prop :=
  ∀ f ∈ s.fields, f.kind.OfKind nested (f.content r)

/-- All contents of a value of the structure `name` are of the kinds that the fields demand, and all
groups of fixed length are complete, those of absent structures included. -/
def Schema.WellKinded (schema : Schema) (name : String) : Record → Prop :=
  interpret (fun _ _ => False) Structure.WellKinded schema.structures name

/-! ### Sizes look no further than what is referred to -/

section Local

theorem Element.exactSize?_congr {nested nested' : String → Option Nat} {item : Element}
    {cardinality : Cardinality} (h : (FieldKind.repeated item cardinality).Agree nested nested') :
    item.exactSize? nested = item.exactSize? nested' := by
  cases item with
  | struct type => exact h.item
  | _ => rfl

theorem FieldKind.exactSize?_congr {nested nested' : String → Option Nat} {kind : FieldKind}
    (h : kind.Agree nested nested') : kind.exactSize? nested = kind.exactSize? nested' := by
  cases kind with
  | embedded type => exact h type (List.mem_singleton_self type)
  | repeated item cardinality =>
    cases cardinality with
    | fixed count => simp only [exactSize?, Element.exactSize?_congr h]
    | _ => rfl
  | _ => rfl

theorem Structure.local_exactSize? : Local Structure.exactSize? := by
  intro s nested nested' h
  simp only [exactSize?, mapM_congr fun f hf => FieldKind.exactSize?_congr (h f hf)]

theorem FieldKind.total_congr {nested nested' : String → Record → Nat} {kind : FieldKind}
    (h : kind.Agree nested nested') : kind.total nested = kind.total nested' := by
  funext x
  cases kind with
  | embedded type => cases x <;> simp only [total, h type (List.mem_singleton_self type)]
  | repeated item cardinality =>
    have hitem : item.total nested = item.total nested' := by
      funext y
      cases item with
      | struct type => cases y <;> simp only [Element.total, h.item]
      | _ => rfl
    cases x <;> simp only [total, hitem]
  | _ => cases x <;> rfl

theorem Structure.local_total : Local Structure.total := by
  intro s nested nested' h
  funext r
  refine congrArg List.sum (List.map_congr_left fun f hf => ?_)
  rw [FieldKind.total_congr (h f hf)]

theorem FieldKind.OfKind.imp {nested nested' : String → Record → Prop} {kind : FieldKind}
    {x : Value} (h : kind.OfKind nested x)
    (hn : ∀ type ∈ kind.references, ∀ r, nested type r → nested' type r) :
    kind.OfKind nested' x := by
  cases h with
  | uint => exact .uint
  | fixedBytes => exact .fixedBytes
  | bytes => exact .bytes
  | derived => exact .derived
  | record hr => exact .record (hn _ (List.mem_singleton_self _) _ hr)
  | list hitems hcount =>
    refine .list (fun x hx => ?_) hcount
    cases hitems x hx with
    | record hr => exact .record (hn _ (List.mem_singleton_self _) _ hr)
    | uint => exact .uint
    | bytes => exact .bytes

theorem Structure.local_wellKinded : Local Structure.WellKinded := by
  intro s nested nested' h
  funext r
  refine propext (forall₂_congr fun f hf => ⟨fun hx => ?_, fun hx => ?_⟩)
  · exact hx.imp fun type ht r hr => h f hf type ht ▸ hr
  · exact hx.imp fun type ht r hr => (h f hf type ht).symm ▸ hr

end Local

section Found

variable {schema : Schema} (h : Layered schema.structures) {name : String} {s : Structure}
  (hs : schema.structure? name = some s)
include h hs

theorem Schema.exactSize?_of_find : schema.exactSize? name = s.exactSize? schema.exactSize? :=
  h.interpret_of_find _ _ Structure.local_exactSize? hs

theorem Schema.total_of_find : schema.total name = s.total schema.total :=
  h.interpret_of_find _ _ Structure.local_total hs

theorem Schema.wellKinded_of_find : schema.WellKinded name = s.WellKinded schema.WellKinded :=
  h.interpret_of_find _ _ Structure.local_wellKinded hs

end Found

/-! ### A size that is known is exact -/

section Fixed

variable {structures : List Structure} {sizes : String → Option Nat} {kind : FieldKind} {n : Nat}

theorem FieldKind.exactSize?_of_fixedSize?
    (hn : ∀ type ∈ kind.references, ∀ n, (Element.struct type).fixedSize? structures = some n →
      sizes type = some n)
    (h : kind.fixedSize? structures = some n) : kind.exactSize? sizes = some n := by
  cases kind with
  | embedded type => exact hn type (List.mem_singleton_self type) n h
  | repeated item cardinality =>
    cases cardinality with
    | fixed count =>
      obtain ⟨size, hsize, rfl⟩ := Option.map_eq_some_iff.1 h
      have hitem : item.exactSize? sizes = some size := by
        cases item with
        | struct type => exact hn type (List.mem_singleton_self type) size hsize
        | _ => exact hsize
      rw [exactSize?, hitem, Option.map_some]
    | _ => cases h
  | _ => exact h

theorem mapM_exactSize? {fields : List Field} {fixed : List Nat}
    (hn : ∀ f ∈ fields, ∀ type ∈ f.kind.references, ∀ n,
      (Element.struct type).fixedSize? structures = some n → sizes type = some n)
    (h : fields.mapM (fun f : Field => f.kind.fixedSize? structures) = some fixed) :
    fields.mapM (fun f : Field => f.kind.exactSize? sizes) = some fixed := by
  induction fields generalizing fixed with
  | nil => exact h
  | cons f rest ih =>
    obtain ⟨hfirst, hrest⟩ := List.forall_mem_cons.1 hn
    rw [List.mapM_cons] at h ⊢
    obtain ⟨first, hf, h⟩ := Option.bind_eq_some_iff.1 h
    obtain ⟨others, hothers, h⟩ := Option.bind_eq_some_iff.1 h
    rw [FieldKind.exactSize?_of_fixedSize? hfirst hf, ih hrest hothers]
    exact h

/-- The size that is known of a structure is its exact size. -/
theorem Schema.exactSize?_of_fixedSize {schema : Schema} (h : Layered schema.structures)
    {name : String} {s : Structure} (hs : schema.structure? name = some s)
    (hn : s.fixedSize = some n) : schema.exactSize? name = some n := by
  refine h.induction_of_found (P := fun name s => ∀ n, s.fixedSize = some n →
    schema.exactSize? name = some n) (fun name s hs ih n hn => ?_) hs n hn
  rw [(sound_of_find h hs).fixedSize_eq] at hn
  obtain ⟨fixed, hfixed, -, rfl⟩ := fixedSizeOf_eq_some_iff.1 hn
  rw [exactSize?_of_find h hs, Structure.exactSize?]
  refine Option.map_eq_some_iff.2 ⟨fixed, mapM_exactSize? (fun f hf type ht m hm => ?_) hfixed, rfl⟩
  obtain ⟨t, ht, hsize⟩ := ih f hf type ht
  rw [Element.fixedSize?, ht, Option.bind_some] at hm
  exact hsize m hm

end Fixed

/-! ### A size that all values have is that of each -/

section Same

variable {sizes : String → Option Nat} {kinded : String → Record → Prop}
  {totals : String → Record → Nat} {kind : FieldKind} {x : Value} {n : Nat}

theorem FieldKind.total_of_exactSize?
    (hn : ∀ type ∈ kind.references, ∀ n, sizes type = some n →
      ∀ r, kinded type r → totals type r = n)
    (hx : kind.OfKind kinded x) (h : kind.exactSize? sizes = some n) :
    kind.total totals x = n := by
  cases hx with
  | uint => exact Option.some.inj h
  | fixedBytes => exact Option.some.inj h
  | bytes => cases h
  | derived => exact Option.some.inj h
  | record hr => exact hn _ (List.mem_singleton_self _) n h _ hr
  | @list item cardinality items hitems hcount =>
    cases cardinality with
    | fixed count =>
      obtain ⟨size, hsize, rfl⟩ := Option.map_eq_some_iff.1 h
      have hsame : ∀ y ∈ items, item.total totals y = size := by
        intro y hy
        cases hitems y hy with
        | record hr => exact hn _ (List.mem_singleton_self _) size hsize _ hr
        | uint => exact Option.some.inj hsize
        | bytes => exact Option.some.inj hsize
      rw [total, List.map_congr_left hsame, List.map_const', List.sum_replicate_nat,
        hcount count rfl, Nat.mul_comm]
    | _ => cases h

/-- The sizes of fields that all values have add up for each value. -/
theorem sum_total_of_mapM {fields : List Field} {exact : List Nat} {r : Record}
    (hn : ∀ f ∈ fields, ∀ type ∈ f.kind.references, ∀ n, sizes type = some n →
      ∀ r, kinded type r → totals type r = n)
    (hr : ∀ f ∈ fields, f.kind.OfKind kinded (f.content r))
    (h : fields.mapM (fun f : Field => f.kind.exactSize? sizes) = some exact) :
    fields.map (fun f => f.kind.total totals (f.content r)) = exact := by
  induction fields generalizing exact with
  | nil =>
    cases h
    rfl
  | cons f rest ih =>
    obtain ⟨hfirst, hrest⟩ := List.forall_mem_cons.1 hn
    obtain ⟨hf, hr⟩ := List.forall_mem_cons.1 hr
    rw [List.mapM_cons] at h
    obtain ⟨first, hsize, h⟩ := Option.bind_eq_some_iff.1 h
    obtain ⟨others, hothers, h⟩ := Option.bind_eq_some_iff.1 h
    cases h
    rw [List.map_cons, FieldKind.total_of_exactSize? hfirst hf hsize, ih hrest hr hothers]

/-- A size that all values of a structure have is that of each of them. -/
theorem Schema.total_of_exactSize? {schema : Schema} (h : Layered schema.structures)
    {name : String} {s : Structure} (hs : schema.structure? name = some s)
    (hn : schema.exactSize? name = some n) {r : Record} (hr : schema.WellKinded name r) :
    schema.total name r = n := by
  refine h.induction_of_found (P := fun name _ => ∀ n, schema.exactSize? name = some n →
    ∀ r, schema.WellKinded name r → schema.total name r = n) (fun name s hs ih n hn r hr => ?_)
    hs n hn r hr
  rw [exactSize?_of_find h hs] at hn
  rw [wellKinded_of_find h hs] at hr
  obtain ⟨exact, hexact, rfl⟩ := Option.map_eq_some_iff.1 hn
  rw [total_of_find h hs, Structure.total]
  refine congrArg List.sum (sum_total_of_mapM (fun f hf type ht => ?_) hr hexact)
  obtain ⟨t, -, htotal⟩ := ih f hf type ht
  exact htotal

end Same

/-! ### Measuring -/

/-- What was measured is the exact size, unless that is no machine word. -/
def ComesTo (measured : Except Error Nat) (total : Nat) : Prop :=
  measured = .ok total ∨ 2 ^ 64 ≤ total ∧ measured = .error (.abort .sizeOverflow)

theorem comesTo_inWord (total : Nat) : ComesTo (inWord total) total := by
  unfold inWord
  split
  · exact .inl rfl
  · next h => exact .inr ⟨Nat.not_lt.1 h, rfl⟩

/-- Sizes are added up to their exact sum, or to an overflow if that is no machine word. -/
theorem addSizes_eq_inWord {α : Type} {size : α → Except Error Nat} {total : α → Nat}
    {xs : List α} (h : ∀ x ∈ xs, ComesTo (size x) (total x)) {before : Nat}
    (hbefore : before < 2 ^ 64) :
    addSizes size before xs = inWord (before + (xs.map total).sum) := by
  induction xs generalizing before with
  | nil => exact (if_pos hbefore).symm
  | cons x xs ih =>
    obtain ⟨hx, hxs⟩ := List.forall_mem_cons.1 h
    rw [addSizes, List.map_cons, List.sum_cons, ← Nat.add_assoc]
    rcases hx with hx | ⟨hlarge, hx⟩
    · simp only [hx, bind, Except.bind]
      by_cases hsum : before + total x < 2 ^ 64
      · rw [addSize_eq_ok_iff.2 ⟨hsum, rfl⟩]
        exact ih hxs hsum
      · rw [addSize, if_neg hsum, inWord, if_neg (by omega)]
    · simp only [hx, bind, Except.bind]
      rw [inWord, if_neg (by omega)]

namespace Encode

variable {encoders : String → Encoder} {kinded : String → Record → Prop}
  {totals : String → Record → Nat} {s : Structure} {f : Field}

/-- An absent field is measured as what it stands for. -/
theorem fieldSize_content (r : Record) :
    fieldSize encoders s f (r.get? f.name) = fieldSize encoders s f (some (f.content r)) := by
  unfold Field.content
  cases r.get? f.name with
  | some x => rfl
  | none => cases hk : f.kind <;> simp only [fieldSize, hk, FieldKind.zero] <;> rfl

/-- The values of the structures that a kind of field refers to are measured exactly. -/
def Exacts (encoders : String → Encoder) (kinded : String → Record → Prop)
    (totals : String → Record → Nat) (kind : FieldKind) : Prop :=
  ∀ type ∈ kind.references, ∀ r, kinded type r →
    ComesTo ((encoders type).size r) (totals type r)

theorem Exacts.items {item : Element} {cardinality : Cardinality} {items : List Value}
    (hn : Exacts encoders kinded totals (.repeated item cardinality))
    (hitems : ∀ x ∈ items, item.OfKind kinded x) :
    addSizes (itemSize encoders s f item) 0 items = inWord (items.map (item.total totals)).sum := by
  have hsizes : ∀ x ∈ items, ComesTo (itemSize encoders s f item x) (item.total totals x) := by
    intro x hx
    cases hitems x hx with
    | record hr => exact hn _ (List.mem_singleton_self _) _ hr
    | uint => exact .inl rfl
    | bytes => exact .inl rfl
  rw [addSizes_eq_inWord hsizes (Nat.two_pow_pos 64), Nat.zero_add]

/-- The content of a field is measured exactly. -/
theorem Exacts.field (hn : Exacts encoders kinded totals f.kind) {x : Value}
    (hx : f.kind.OfKind kinded x) :
    ComesTo (fieldSize encoders s f (some x)) (f.kind.total totals x) := by
  unfold fieldSize
  generalize f.kind = kind at hn hx
  cases hx with
  | record hr => exact hn _ (List.mem_singleton_self _) _ hr
  | list hitems _ =>
    simp only [listContent, bind, Except.bind, hn.items hitems]
    exact comesTo_inWord _
  | _ => exact .inl rfl

end Encode

namespace Schema

variable {schema : Schema} (h : Layered schema.structures) {name : String} {s : Structure}
  (hs : schema.structure? name = some s) {r : Record} (hr : schema.WellKinded name r)
include h hs hr

/-- The fields of a value are measured exactly if the values in it are. -/
theorem comesTo_fieldSize {f : Field} (hf : f ∈ s.fields)
    (hn : Encode.Exacts schema.encoder schema.WellKinded schema.total f.kind) :
    ComesTo (Encode.fieldSize schema.encoder s f (r.get? f.name))
      (f.kind.total schema.total (f.content r)) := by
  rw [wellKinded_of_find h hs] at hr
  rw [Encode.fieldSize_content]
  exact hn.field (hr f hf)

/-- Measuring a value comes to its exact size, or to an overflow if that is no machine word. -/
theorem encodedSize_of_wellKinded : schema.encodedSize name r = inWord (schema.total name r) := by
  refine h.induction_of_found (P := fun name _ => ∀ r, schema.WellKinded name r →
    schema.encodedSize name r = inWord (schema.total name r)) (fun name s hs ih r hr => ?_) hs r hr
  rw [encodedSize_of_find h hs, Encode.size]
  cases hfixed : s.fixedSize with
  | some n =>
    -- the size that is known of the layout is that of the value
    have hlt := (sound_of_find h hs).fixedSize_lt hfixed
    rw [total_of_exactSize? h hs (exactSize?_of_fixedSize h hs hfixed) hr, inWord, if_pos hlt]
  | none =>
    have hfields : ∀ f ∈ s.fields, ComesTo
        (Encode.fieldSize schema.encoder s f (r.get? f.name))
        (f.kind.total schema.total (f.content r)) := by
      refine fun f hf => comesTo_fieldSize h hs hr hf fun type ht inner hinner => ?_
      obtain ⟨t, -, hsize⟩ := ih f hf type ht
      show ComesTo (schema.encodedSize type inner) _
      rw [hsize inner hinner]
      exact comesTo_inWord _
    rw [total_of_find h hs]
    exact (addSizes_eq_inWord hfields (Nat.two_pow_pos 64)).trans (by rw [Nat.zero_add]; rfl)

/-- So does the number that is derived from the size of a group. -/
theorem derived_of_wellKinded {f : Field} (hf : f ∈ s.fields) {d : Field} (hd : d ∈ s.fields)
    {width : Width} (hk : d.kind = .derived width f.name .groupSize) :
    schema.derived name r d.name = inWord (f.kind.total schema.total (f.content r)) := by
  have hsound := sound_of_find h hs
  have hn : Encode.Exacts schema.encoder schema.WellKinded schema.total f.kind := by
    intro type ht inner hinner
    obtain ⟨t, ht⟩ := Option.isSome_iff_exists.1 (hsound.references f hf type ht)
    show ComesTo (schema.encodedSize type inner) _
    rw [encodedSize_of_wellKinded h ht hinner]
    exact comesTo_inWord _
  obtain ⟨g, hdg, hname, hgovernor⟩ := hsound.wired.governs d hd width f.name .groupSize hk
  obtain rfl := List.inj_on_of_nodup_map hsound.distinct (hdg.subset (by simp)) hf hname
  obtain ⟨item, hgroup⟩ := FieldKind.exists_budgeted hgovernor
  rw [wellKinded_of_find h hs] at hr
  have hx := hr g hf
  rw [derived_of_find h hs hd hk, Encode.derive_groupSize hsound hf, Encode.fieldSize_content]
  rw [hgroup] at hn hx
  simp only [Encode.fieldSize, hgroup]
  generalize g.content r = x at hx
  cases hx with
  | list hitems _ => exact hn.items hitems

end Schema

/-- Sizes are exact. No document stops the machine that resolves it. In the schema of a document, a
size that is known of a structure is the exact sum of the sizes of its fields, and no size is known
where this is no machine word. Measuring a value of the right kinds comes to its exact size, or to
an overflow if that is no machine word, and so does the size of a group that is derived from it. -/
theorem sizes_exact (d : Document) :
    Machine.resolve d = Machine.lift (Schema.resolve d) ∧ Machine.resolve d ≠ .error .panicked ∧
    ∀ schema, Schema.resolve d = .ok schema → ∀ name s, schema.structure? name = some s →
      (∀ n, s.fixedSize = some n → schema.exactSize? name = some n) ∧
      (∀ n, schema.exactSize? name = some n → 2 ^ 64 ≤ n → s.fixedSize = none) ∧
      ∀ r, schema.WellKinded name r →
        schema.encodedSize name r = inWord (schema.total name r) ∧
        ∀ f ∈ s.fields, ∀ g ∈ s.fields, ∀ width, g.kind = .derived width f.name .groupSize →
          schema.derived name r g.name = inWord (f.kind.total schema.total (f.content r)) := by
  have hresolve := Machine.resolve_eq d
  refine ⟨hresolve, ?_, fun schema h name s hs => ?_⟩
  · rw [hresolve]
    cases Schema.resolve d <;> exact nofun
  have hl := layered_of_resolve h
  have hexact : ∀ n, s.fixedSize = some n → schema.exactSize? name = some n :=
    fun n => Schema.exactSize?_of_fixedSize hl hs
  refine ⟨hexact, fun n hn hlarge => ?_, fun r hr => ⟨?_, ?_⟩⟩
  · cases hfixed : s.fixedSize with
    | none => rfl
    | some m =>
      have hlt := (Schema.sound_of_find hl hs).fixedSize_lt hfixed
      obtain rfl := Option.some.inj ((hexact m hfixed).symm.trans hn)
      omega
  · exact Schema.encodedSize_of_wellKinded hl hs hr
  · exact fun f hf g hg width hk => Schema.derived_of_wellKinded hl hs hr hf hg hk

/-! ### An example -/

theorem wellKinded_pair : halvesSchema.WellKinded "Pair" [] := by
  have hl := layered_of_resolve resolve_halvesDocument
  rw [Schema.wellKinded_of_find hl (s := pairStructure) rfl]
  simp only [Structure.WellKinded, pairStructure, List.forall_mem_cons]
  exact ⟨.fixedBytes, .fixedBytes, List.forall_mem_nil _⟩

theorem wellKinded_plainPacket : packetSchema.WellKinded "Packet" plainPacket := by
  have hl := layered_of_resolve resolve_packetDocument
  have hchunk : ∀ words : List UInt64,
      packetSchema.WellKinded "Chunk" [("words", .list (words.map .uint))] := by
    intro words
    have hwords : ∀ x ∈ words.map Value.uint,
        (Element.scalar .two).OfKind packetSchema.WellKinded x := by
      intro x hx
      obtain ⟨n, -, rfl⟩ := List.mem_map.1 hx
      exact .uint
    rw [Schema.wellKinded_of_find hl rfl]
    simp only [Structure.WellKinded, List.forall_mem_cons]
    exact ⟨.derived, .list hwords (fun count h => by cases h), List.forall_mem_nil _⟩
  have hparts : ∀ x ∈ [Value.record [("words", .list [.uint 5])]],
      (Element.struct "Chunk").OfKind packetSchema.WellKinded x := by
    rintro x hx
    obtain rfl := List.mem_singleton.1 hx
    exact .record (hchunk [5])
  rw [Schema.wellKinded_of_find hl (s := packetStructure) rfl]
  simp only [Structure.WellKinded, packetStructure, List.forall_mem_cons]
  refine ⟨.derived, .derived, .bytes, .fixedBytes, .record (hchunk []), ?_, List.forall_mem_nil _⟩
  exact .list hparts fun count h => by cases h

/-- A pair of halves is too long to be measured, so no size is known of it; the parts of a packet
are not. -/
theorem sizes_of_halves :
    Machine.resolve halvesDocument = .ok halvesSchema ∧
      halvesSchema.exactSize? "Pair" = some (2 ^ 64) ∧ pairStructure.fixedSize = none ∧
      halvesSchema.encodedSize "Pair" [] = .error (.abort .sizeOverflow) ∧
      packetSchema.derived "Packet" plainPacket "total" = .ok 4 := by
  obtain ⟨hmachine, -, hhalves⟩ := sizes_exact halvesDocument
  obtain ⟨-, hlarge, hpair⟩ := hhalves halvesSchema resolve_halvesDocument "Pair" pairStructure rfl
  obtain ⟨-, -, hpackets⟩ := sizes_exact packetDocument
  obtain ⟨-, -, hpacket⟩ :=
    hpackets packetSchema resolve_packetDocument "Packet" packetStructure rfl
  have hexact : halvesSchema.exactSize? "Pair" = some (2 ^ 64) := by decide +kernel
  refine ⟨?_, hexact, hlarge _ hexact (Nat.le_refl _), (hpair [] wellKinded_pair).1, ?_⟩
  · rw [hmachine, resolve_halvesDocument]
    rfl
  · obtain ⟨-, hgroup⟩ := hpacket plainPacket wellKinded_plainPacket
    exact hgroup ⟨"parts", .repeated (.struct "Chunk") (.budgeted "total")⟩ (by decide)
      ⟨"total", .derived .two "parts" .groupSize⟩ (by decide) .two rfl

end WireSchema
