import WireSchema.Proofs.Resolve.Visit

/-!
# Sizes as machine words

The sizes of a layout are summed here without bound and brought into the range of a machine word at
the end. A machine does not have the sum before: it adds and multiplies words, and an operation that
leaves the range either has no result or stays at the largest word. Both ways come to the same, as
all the numbers that a document gives, and all the sizes that are known of the structures that are
laid out already, are machine words.

* `Machine.fixedSizeOf`, `Machine.minSizeOf`: the sizes of a list of fields, worked out in words.
* `TableInRange`: the numbers of a list of structures are machine words. What is built from a
  document is in range (`Built.inRange`).
* `Machine.toNat_fixedSizeOf`, `Machine.toNat_minSizeOf`: the sizes in words are those of the
  layout.
-/

namespace WireSchema

namespace Machine

/-! ### Words -/

/-- The sum of two words, unless it is out of range. -/
def checkedAdd (a b : UInt64) : Option UInt64 :=
  if a.toNat + b.toNat < 2 ^ 64 then some (a + b) else none

/-- The product of two words, unless it is out of range. -/
def checkedMul (a b : UInt64) : Option UInt64 :=
  if a.toNat * b.toNat < 2 ^ 64 then some (a * b) else none

/-- The largest word. -/
def maxWord : UInt64 := .ofNat (2 ^ 64 - 1)

/-- The sum of two words, or the largest word if it is out of range. -/
def saturatingAdd (a b : UInt64) : UInt64 := (checkedAdd a b).getD maxWord

/-- The product of two words, or the largest word if it is out of range. -/
def saturatingMul (a b : UInt64) : UInt64 := (checkedMul a b).getD maxWord

/-! ### Extents in words -/

section Extents

variable (structures : List Structure)

/-- The length of an item, if it is the same for all values. -/
def itemSize? : Element → Option UInt64
  | .struct type => (findStructure? structures type).bind fun s => s.fixedSize.map UInt64.ofNat
  | .scalar width => some (.ofNat width.bytes)
  | .blob size => some (.ofNat size)

/-- The length of a field, if it is the same for all values. -/
def size? : FieldKind → Option UInt64
  | .scalar width => some (.ofNat width.bytes)
  | .derived width _ _ => some (.ofNat width.bytes)
  | .fixedBlob size => some (.ofNat size)
  | .variableBlob _ => none
  | .embedded type => itemSize? structures (.struct type)
  | .repeated item (.fixed count) => do checkedMul (← itemSize? structures item) (.ofNat count)
  | .repeated _ _ => none

/-- The length of the shortest item. -/
def itemMinSize : Element → UInt64
  | .struct type => ((findStructure? structures type).map fun s => UInt64.ofNat s.minSize).getD 0
  | .scalar width => .ofNat width.bytes
  | .blob size => .ofNat size

/-- The length of a field at its shortest. -/
def minSize : FieldKind → UInt64
  | .scalar width => .ofNat width.bytes
  | .derived width _ _ => .ofNat width.bytes
  | .fixedBlob size => .ofNat size
  | .variableBlob _ => 0
  | .embedded type => itemMinSize structures (.struct type)
  | .repeated item (.fixed count) => saturatingMul (itemMinSize structures item) (.ofNat count)
  | .repeated _ _ => 0

/-- The length with that of one more field, if there is one. -/
def addSize? (total : UInt64) (f : Field) : Option UInt64 := do
  checkedAdd total (← size? structures f.kind)

/-- The length of all values of a list of fields, added up from left to right. -/
def fixedSizeOf (fields : List Field) : Option UInt64 := fields.foldlM (addSize? structures) 0

/-- The least length with that of one more field. -/
def addMinSize (total : UInt64) (f : Field) : UInt64 :=
  saturatingAdd total (minSize structures f.kind)

/-- The length of a list of fields at its shortest, added up from left to right. -/
def minSizeOf (fields : List Field) : UInt64 := fields.foldl (addMinSize structures) 0

end Extents

end Machine

/-! ### What is in range -/

/-- The number of an item is a machine word. -/
def Element.InRange : Element → Prop
  | blob size => size < 2 ^ 64
  | _ => True

/-- The numbers of a kind of field are machine words. -/
def FieldKind.InRange : FieldKind → Prop
  | fixedBlob size => size < 2 ^ 64
  | repeated item (.fixed count) => item.InRange ∧ count < 2 ^ 64
  | repeated item _ => item.InRange
  | _ => True

/-- The numbers of the fields are machine words. -/
def FieldsInRange (fields : List Field) : Prop := ∀ f ∈ fields, f.kind.InRange

/-- The numbers of a structure, and what is known of its size, are machine words. -/
structure Structure.InRange (s : Structure) : Prop where
  fields : FieldsInRange s.fields
  fixedSize : ∀ n, s.fixedSize = some n → n < 2 ^ 64
  minSize : s.minSize < 2 ^ 64

/-- The numbers of some structures are machine words. -/
def TableInRange (structures : List Structure) : Prop := ∀ s ∈ structures, s.InRange

theorem Structure.Sound.fixedSize_lt {below : List Structure} {s : Structure} (hs : s.Sound below)
    {n : Nat} (hn : s.fixedSize = some n) : n < 2 ^ 64 := by
  rw [hs.fixedSize_eq] at hn
  obtain ⟨sizes, -, hlt, rfl⟩ := fixedSizeOf_eq_some_iff.1 hn
  exact hlt

/-- A structure promises sizes that are machine words. -/
theorem Structure.Sound.inRange {below : List Structure} {s : Structure} (hs : s.Sound below)
    (h : FieldsInRange s.fields) : s.InRange where
  fields := h
  fixedSize _ hn := hs.fixedSize_lt hn
  minSize := by
    rw [hs.minSize_eq, minSizeOf]
    unfold saturate
    omega

section Declared

variable {d : Document} {below : List Structure} {owner : String}

theorem Document.HasItem.inRange {type : String} {item : Element} (h : d.HasItem type item) :
    item.InRange := by
  cases h with
  | @blob size => exact size.toNat_lt
  | _ => trivial

/-- A document gives its numbers as machine words. -/
theorem Attribute.Declares.inRange {a : Attribute} {kind : FieldKind} (h : a.Declares d kind) :
    kind.InRange := by
  cases h with
  | @rawBlob size => exact size.toNat_lt
  | @single item _ hitem =>
    have hrange := hitem.inRange
    cases item <;> trivial
  | @fixed item count _ hitem => exact ⟨hitem.inRange, count.toNat_lt⟩
  | counted _ hitem => exact hitem.inRange
  | budgeted _ hitem => exact hitem.inRange
  | _ => trivial

theorem Attribute.inRange_piece (hb : TableInRange below) {a : Attribute} {p : Piece}
    (hp : a.piece d below owner = .ok p) : FieldsInRange p.fields := by
  rcases hdisp : a.disposition with _ | (_ | _)
  · obtain ⟨name, kind, -, hkind, -, rfl⟩ := (piece_field_iff hdisp).1 hp
    intro f hf
    rw [List.mem_singleton.1 hf]
    exact hkind.inRange
  · obtain ⟨-, s, hs, rfl⟩ := (piece_inline_iff hdisp).1 hp
    exact (hb s (mem_of_findStructure? hs)).fields
  · obtain ⟨c, -, rfl⟩ := (piece_const_iff hdisp).1 hp
    exact nofun

theorem inRange_pieces (hb : TableInRange below) {layout : List Attribute} {p : Piece}
    (hp : pieces d below owner layout = .ok p) : FieldsInRange p.fields := by
  induction layout generalizing p with
  | nil =>
    cases hp
    exact nofun
  | cons a rest ih =>
    obtain ⟨first, hfirst, hp⟩ := bind_eq_ok_iff.1 hp
    obtain ⟨others, hothers, hp⟩ := bind_eq_ok_iff.1 hp
    cases hp
    intro f hf
    rcases List.mem_append.1 hf with hf | hf
    · exact Attribute.inRange_piece hb hfirst f hf
    · exact ih hothers f hf

/-- What is bound to another field holds no number of its own. -/
theorem inRange_bindSizes {fields bound : List Field} {bs : List Binding}
    (h : bs.foldlM (bindSize owner) fields = .ok bound) (hf : FieldsInRange fields) :
    FieldsInRange bound := by
  refine foldlM_preserves (P := FieldsInRange) ?_ h hf
  intro b _ old new hold hnew
  obtain ⟨carrier, width, -, -, rfl⟩ := bindSize_eq_ok_iff.1 hnew
  intro f hf
  obtain ⟨g, hg, rfl⟩ := List.mem_map.1 hf
  unfold Binding.settle
  split
  · trivial
  · exact hold g hg

/-- What is built from a document is in range. -/
theorem Built.inRange {structures : List Structure} (h : Built d structures) :
    TableInRange structures := by
  induction h with
  | nil => exact nofun
  | @cons s below layout p _ _ hready hp hs hb ih =>
    intro t ht
    rcases List.mem_cons.1 ht with rfl | ht
    · refine (sound_assemble (sound_pieces hb.layered hready hp) hs).2.inRange ?_
      obtain ⟨-, -, fields, hfields, heq⟩ := assemble_eq_ok_iff.1 hs
      rw [heq]
      exact inRange_bindSizes hfields (inRange_pieces ih hp)
    · exact ih t ht

end Declared

/-! ### Sizes in words are sizes -/

namespace Machine

theorem toNat_ofNat {n : Nat} (h : n < 2 ^ 64) : (UInt64.ofNat n).toNat = n :=
  UInt64.toNat_ofNat_of_lt' h

theorem toNat_checkedAdd (a b : UInt64) :
    (checkedAdd a b).map UInt64.toNat = word? (a.toNat + b.toNat) := by
  unfold checkedAdd word?
  split
  · next h => rw [Option.map_some, UInt64.toNat_add, Nat.mod_eq_of_lt h]
  · rfl

theorem toNat_checkedMul (a b : UInt64) :
    (checkedMul a b).map UInt64.toNat = word? (a.toNat * b.toNat) := by
  unfold checkedMul word?
  split
  · next h => rw [Option.map_some, UInt64.toNat_mul, Nat.mod_eq_of_lt h]
  · rfl

/-- The number of a word is a word. -/
theorem bind_word? (a : Option UInt64) :
    (a.map UInt64.toNat).bind word? = a.map UInt64.toNat := by
  cases a with
  | none => rfl
  | some n => exact if_pos n.toNat_lt

theorem toNat_getD_maxWord {a : Option UInt64} {n : Nat} (h : a.map UInt64.toNat = word? n) :
    (a.getD maxWord).toNat = saturate n := by
  unfold word? at h
  unfold saturate
  split at h
  · obtain ⟨b, rfl, rfl⟩ := Option.map_eq_some_iff.1 h
    rw [Option.getD_some]
    omega
  · obtain rfl := Option.map_eq_none_iff.1 h
    have hmax : maxWord.toNat = 2 ^ 64 - 1 := rfl
    rw [Option.getD_none, hmax]
    omega

theorem toNat_saturatingAdd (a b : UInt64) :
    (saturatingAdd a b).toNat = saturate (a.toNat + b.toNat) :=
  toNat_getD_maxWord (toNat_checkedAdd a b)

theorem toNat_saturatingMul (a b : UInt64) :
    (saturatingMul a b).toNat = saturate (a.toNat * b.toNat) :=
  toNat_getD_maxWord (toNat_checkedMul a b)

section Extents

variable {structures : List Structure} (hb : TableInRange structures)

theorem toNat_bytes (width : Width) : (UInt64.ofNat width.bytes).toNat = width.bytes := by
  have := width.bytes_le
  exact toNat_ofNat (by omega)

include hb

theorem toNat_itemSize? {item : Element} (hi : item.InRange) :
    (itemSize? structures item).map UInt64.toNat = item.fixedSize? structures := by
  cases item with
  | struct type =>
    simp only [itemSize?, Element.fixedSize?]
    cases hfind : findStructure? structures type with
    | none => rfl
    | some s =>
      simp only [Option.bind_some]
      cases hsize : s.fixedSize with
      | none => rfl
      | some n =>
        have hn := (hb s (mem_of_findStructure? hfind)).fixedSize n hsize
        simp only [Option.map_some, toNat_ofNat hn]
  | scalar width => exact congrArg some (toNat_bytes width)
  | blob size => exact congrArg some (toNat_ofNat hi)

/-- The size of a field in words is its size, if this is a word. -/
theorem toNat_size? {kind : FieldKind} (hk : kind.InRange) :
    (size? structures kind).map UInt64.toNat = (kind.fixedSize? structures).bind word? := by
  have hitem : ∀ {item : Element}, item.InRange →
      item.fixedSize? structures = (itemSize? structures item).map UInt64.toNat :=
    fun hi => (toNat_itemSize? hb hi).symm
  cases kind with
  | scalar width =>
    rw [FieldKind.fixedSize?, ← toNat_bytes width]
    exact (bind_word? (some (.ofNat width.bytes))).symm
  | derived width content rule =>
    rw [FieldKind.fixedSize?, ← toNat_bytes width]
    exact (bind_word? (some (.ofNat width.bytes))).symm
  | fixedBlob size =>
    have hsize : (UInt64.ofNat size).toNat = size := toNat_ofNat hk
    have hword := bind_word? (some (.ofNat size))
    rw [Option.map_some, hsize] at hword
    rw [FieldKind.fixedSize?, hword, size?, Option.map_some, hsize]
  | variableBlob sizeField => rfl
  | embedded type =>
    have hstruct : (Element.struct type).InRange := trivial
    rw [FieldKind.fixedSize?, hitem hstruct, bind_word?]
    rfl
  | repeated item cardinality =>
    cases cardinality with
    | fixed count =>
      rw [FieldKind.fixedSize?, hitem hk.1, size?]
      cases itemSize? structures item with
      | none => rfl
      | some size =>
        have hmul := toNat_checkedMul size (.ofNat count)
        rw [toNat_ofNat hk.2] at hmul
        exact hmul
    | counted sizeField => rfl
    | budgeted sizeField => rfl

theorem toNat_itemMinSize {item : Element} (hi : item.InRange) :
    (itemMinSize structures item).toNat = item.minSize structures := by
  cases item with
  | struct type =>
    simp only [itemMinSize, Element.minSize]
    cases hfind : findStructure? structures type with
    | none => rfl
    | some s => exact toNat_ofNat (hb s (mem_of_findStructure? hfind)).minSize
  | scalar width => exact toNat_bytes width
  | blob size => exact toNat_ofNat hi

/-- The least size of a field in words is its least size, up to the range of a word. -/
theorem toNat_minSize {kind : FieldKind} (hk : kind.InRange) :
    (minSize structures kind).toNat = saturate (kind.minSize structures) := by
  have hword : ∀ {a : UInt64} {n : Nat}, a.toNat = n → a.toNat = saturate n := by
    rintro a n rfl
    have := a.toNat_lt
    unfold saturate
    omega
  cases kind with
  | scalar width => exact hword (toNat_bytes width)
  | derived width content rule => exact hword (toNat_bytes width)
  | fixedBlob size => exact hword (toNat_ofNat hk)
  | variableBlob sizeField => rfl
  | embedded type => exact hword (toNat_itemMinSize hb trivial)
  | repeated item cardinality =>
    cases cardinality with
    | fixed count =>
      rw [minSize, toNat_saturatingMul, toNat_itemMinSize hb hk.1, toNat_ofNat hk.2]
      rfl
    | counted sizeField => rfl
    | budgeted sizeField => rfl

theorem toNat_addSize? {f : Field} (hf : f.kind.InRange) (total : UInt64) :
    (addSize? structures total f).map UInt64.toNat =
      (f.kind.fixedSize? structures).bind fun n => word? (total.toNat + n) := by
  have hsize := toNat_size? hb hf
  unfold addSize?
  cases hfixed : f.kind.fixedSize? structures with
  | none =>
    rw [hfixed] at hsize
    rw [Option.map_eq_none_iff.1 hsize]
    rfl
  | some n =>
    rw [hfixed, Option.bind_some] at hsize
    rw [Option.bind_some]
    cases hword : size? structures f.kind with
    | none =>
      rw [hword] at hsize
      have hn := word?_eq_none_iff.1 hsize.symm
      exact (word?_eq_none_iff.2 (by omega)).symm
    | some size =>
      rw [hword] at hsize
      obtain ⟨-, rfl⟩ := word?_eq_some_iff.1 hsize.symm
      exact toNat_checkedAdd total size

/-- Checked sums in words have a result exactly if the sum is a word. -/
theorem toNat_foldlM_addSize? {fields : List Field} (hf : FieldsInRange fields) (total : UInt64) :
    (fields.foldlM (addSize? structures) total).map UInt64.toNat =
      (fields.mapM fun f : Field => f.kind.fixedSize? structures).bind fun sizes =>
        word? (total.toNat + sizes.sum) := by
  induction fields generalizing total with
  | nil => exact (bind_word? (some total)).symm
  | cons f rest ih =>
    obtain ⟨hfirst, hrest⟩ := List.forall_mem_cons.1 hf
    have hadd := toNat_addSize? hb hfirst total
    rw [List.foldlM_cons, List.mapM_cons]
    cases hfixed : f.kind.fixedSize? structures with
    | none =>
      rw [hfixed] at hadd
      rw [Option.map_eq_none_iff.1 hadd]
      rfl
    | some n =>
      rw [hfixed, Option.bind_some] at hadd
      cases hsum : addSize? structures total f with
      | none =>
        rw [hsum] at hadd
        have hlarge := word?_eq_none_iff.1 hadd.symm
        -- the sum is out of range here already, so it is so with what follows
        refine (Option.bind_eq_none_iff.2 fun sizes hsizes => ?_).symm
        obtain ⟨m, hm, hsizes⟩ := Option.bind_eq_some_iff.1 hsizes
        obtain ⟨others, -, hsizes⟩ := Option.bind_eq_some_iff.1 hsizes
        cases hm
        cases hsizes
        rw [word?_eq_none_iff, List.sum_cons]
        omega
      | some total' =>
        rw [hsum] at hadd
        obtain ⟨-, hn⟩ := word?_eq_some_iff.1 hadd.symm
        refine (ih hrest total').trans ?_
        cases rest.mapM fun f : Field => f.kind.fixedSize? structures with
        | none => rfl
        | some sizes =>
          show word? (total'.toNat + sizes.sum) = word? (total.toNat + (n :: sizes).sum)
          rw [List.sum_cons, ← Nat.add_assoc, hn]

/-- The size of a list of fields in words is its size. -/
theorem toNat_fixedSizeOf {fields : List Field} (hf : FieldsInRange fields) :
    (fixedSizeOf structures fields).map UInt64.toNat =
      WireSchema.fixedSizeOf structures fields := by
  rw [fixedSizeOf, toNat_foldlM_addSize? hb hf]
  simp only [UInt64.toNat_zero, Nat.zero_add]
  rfl

theorem toNat_foldl_addMinSize {fields : List Field} (hf : FieldsInRange fields)
    (total : UInt64) :
    (fields.foldl (addMinSize structures) total).toNat =
      saturate (total.toNat + (fields.map (·.kind.minSize structures)).sum) := by
  induction fields generalizing total with
  | nil =>
    have := total.toNat_lt
    simp only [List.foldl_nil, List.map_nil, List.sum_nil, saturate]
    omega
  | cons f rest ih =>
    obtain ⟨hfirst, hrest⟩ := List.forall_mem_cons.1 hf
    have hmin := toNat_minSize hb hfirst
    rw [List.foldl_cons, ih hrest, addMinSize, toNat_saturatingAdd, hmin, List.map_cons,
      List.sum_cons]
    unfold saturate
    omega

/-- The least size of a list of fields in words is its least size. -/
theorem toNat_minSizeOf {fields : List Field} (hf : FieldsInRange fields) :
    (minSizeOf structures fields).toNat = WireSchema.minSizeOf structures fields := by
  rw [minSizeOf, toNat_foldl_addMinSize hb hf, UInt64.toNat_zero, Nat.zero_add]
  rfl

end Extents

end Machine

end WireSchema
