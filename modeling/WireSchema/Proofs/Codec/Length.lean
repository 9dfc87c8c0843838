import WireSchema.Proofs.Codec.Writing
import WireSchema.Proofs.Resolve.Layered

/-!
# How long encodings are

Three things are said of the length of an encoding before it is written: the layout bounds it from
below, the layout may fix it, and the value can be measured. `Extent` says that all three are right,
for a field, an item or a structure.

* `Extent.flatten`: the extent of several encodings, one after the other.
* `Layered.measures`: the encoders of a schema measure what they write.
* `Schema.encode_eq_ok_iff`: an encoding is what is written, if that is not too long.
-/

namespace WireSchema

/-- What is said of the length of some bytes: a least length, a length that the layout fixes, and
a length that is measured, within the range of a machine word. -/
structure Extent (least : Nat) (fixed : Option Nat) (measured : Except Error Nat) (bs : Bytes) :
    Prop where
  least_le : least ≤ bs.length
  length_eq : ∀ n, fixed = some n → bs.length = n
  measured_eq : bs.length < 2 ^ 64 → measured = .ok bs.length

namespace Extent

/-- What takes the same number of bytes for all values. -/
theorem exact {n : Nat} {bs : Bytes} (h : bs.length = n) : Extent n (some n) (.ok n) bs where
  least_le := Nat.le_of_eq h.symm
  length_eq m hm := by
    cases hm
    exact h
  measured_eq _ := by rw [h]

/-- What takes any number of bytes. -/
theorem free {measured : Except Error Nat} {bs : Bytes} (h : measured = .ok bs.length) :
    Extent 0 none measured bs where
  least_le := Nat.zero_le _
  length_eq m hm := by cases hm
  measured_eq _ := h

section Flatten

variable {α : Type} {least : α → Nat} {fixed : α → Option Nat} {size : α → Except Error Nat}
  {xs : List α} {chunks : List Bytes}

/-- The sizes of encodings add up to the length of all of them. -/
theorem addSizes_eq
    (h : List.Forall₂ (fun x bs => Extent (least x) (fixed x) (size x) bs) xs chunks)
    {total : Nat} (htotal : total + chunks.flatten.length < 2 ^ 64) :
    addSizes size total xs = .ok (total + chunks.flatten.length) := by
  induction h generalizing total with
  | nil => rfl
  | @cons x bs xs chunks hx _ ih =>
    rw [List.flatten_cons, List.length_append] at htotal ⊢
    have hfirst : size x = .ok bs.length := hx.measured_eq (by omega)
    have hadd : addSize total bs.length = .ok (total + bs.length) :=
      addSize_eq_ok_iff.2 ⟨by omega, rfl⟩
    have hrest : addSizes size (total + bs.length) xs =
        .ok (total + bs.length + chunks.flatten.length) := ih (by omega)
    rw [addSizes]
    simp only [hfirst, hadd, bind, Except.bind, hrest, Nat.add_assoc]

/-- The extent of encodings that stand one after the other. -/
theorem flatten
    (h : List.Forall₂ (fun x bs => Extent (least x) (fixed x) (size x) bs) xs chunks) :
    Extent (xs.map least).sum ((xs.mapM fixed).map List.sum) (addSizes size 0 xs)
      chunks.flatten where
  least_le := by
    induction h with
    | nil => exact Nat.le_refl _
    | @cons x bs xs chunks hx _ ih =>
      have := hx.least_le
      rw [List.map_cons, List.sum_cons, List.flatten_cons, List.length_append]
      omega
  length_eq := by
    induction h with
    | nil =>
      intro n hn
      cases hn
      rfl
    | @cons x bs xs chunks hx _ ih =>
      intro n hn
      rw [List.mapM_cons] at hn
      cases hfirst : fixed x with
      | none => simp [hfirst] at hn
      | some first =>
        cases hrest : xs.mapM fixed with
        | none => simp [hfirst, hrest] at hn
        | some rest =>
          simp only [hfirst, hrest] at hn
          cases hn
          rw [hrest] at ih
          rw [List.flatten_cons, List.length_append, hx.length_eq first hfirst, ih rest.sum rfl]
          exact List.sum_cons.symm
  measured_eq hlen := by
    have hsum : addSizes size 0 xs = .ok (0 + chunks.flatten.length) :=
      addSizes_eq h (by omega)
    rwa [Nat.zero_add] at hsum

end Flatten

end Extent

namespace Encode

/-- Encoders that measure what they write. -/
def Measures (below : List Structure) (nested : String → Encoder) : Prop :=
  ∀ type r bs, (nested type).write r = .ok bs →
    Extent ((Element.struct type).minSize below) ((Element.struct type).fixedSize? below)
      ((nested type).size r) bs

section

variable {below : List Structure} {nested : String → Encoder} {s : Structure} {f : Field}
  {r : Record} {bs : Bytes}

theorem Measures.item (hn : Measures below nested) {element : Element} {x : Value}
    (h : item nested s f element x = .ok bs) :
    Extent (element.minSize below) (element.fixedSize? below) (itemSize nested s f element x)
      bs := by
  cases element with
  | struct type =>
    obtain ⟨r, rfl, hr⟩ := item_struct.1 h
    exact hn type r bs hr
  | scalar width =>
    obtain ⟨n, rfl, hn⟩ := item_scalar.1 h
    exact .exact (Width.length_of_encode hn)
  | blob size =>
    obtain ⟨data, rfl, hdata⟩ := item_blob.1 h
    exact .exact (length_of_fit hdata)

/-- The extent of a group that follows from its items. -/
theorem Measures.items (hn : Measures below nested) {element : Element} {items : List Value}
    {chunks : List Bytes}
    (h : List.Forall₂ (fun x chunk => Encode.item nested s f element x = .ok chunk) items chunks) :
    Extent (element.minSize below * items.length)
      ((element.fixedSize? below).map (· * items.length))
      (addSizes (itemSize nested s f element) 0 items) chunks.flatten := by
  have hitems := Extent.flatten (h.imp fun x chunk hx => hn.item hx)
  constructor
  case least_le =>
    have := hitems.least_le
    rwa [List.map_const', List.sum_replicate_nat, Nat.mul_comm] at this
  case length_eq =>
    intro n hfixed
    obtain ⟨size, hsize, rfl⟩ := Option.map_eq_some_iff.1 hfixed
    refine hitems.length_eq _ ?_
    rw [hsize]
    have hsame : items.mapM (fun _ => some size) = some (items.map fun _ => size) :=
      List.mapM_pure
    rw [hsame, Option.map_some, List.map_const', List.sum_replicate_nat, Nat.mul_comm]
  case measured_eq => exact hitems.measured_eq

/-- The extent of a field. -/
theorem Measures.field (hn : Measures below nested) (h : fieldBytes nested s r f = .ok bs) :
    Extent (f.kind.minSize below) (f.kind.fixedSize? below)
      (fieldSize nested s f (r.get? f.name)) bs := by
  cases hk : f.kind with
  | scalar width =>
    obtain ⟨n, -, hn⟩ := (fieldBytes_scalar hk).1 h
    simp only [fieldSize, hk]
    exact .exact (Width.length_of_encode hn)
  | fixedBlob size =>
    obtain ⟨data, -, hdata⟩ := (fieldBytes_fixedBlob hk).1 h
    simp only [fieldSize, hk]
    exact .exact (length_of_fit hdata)
  | variableBlob sizeField =>
    have hdata := (fieldBytes_variableBlob hk).1 h
    simp only [fieldSize, hk, hdata]
    exact .free rfl
  | embedded type =>
    obtain ⟨inner, hinner, hbs⟩ := (fieldBytes_embedded hk).1 h
    simp only [fieldSize, hk, hinner]
    exact hn type inner bs hbs
  | repeated element cardinality =>
    obtain ⟨items, chunks, hitems, hcount, hchunks, rfl⟩ := (fieldBytes_repeated hk).1 h
    have hextent := hn.items hchunks
    simp only [fieldSize, hk, hitems]
    -- only a count that is part of the layout bounds or fixes the length
    cases cardinality with
    | fixed count =>
      rw [hcount count rfl] at hextent
      exact hextent
    | counted sizeField => exact ⟨Nat.zero_le _, nofun, hextent.measured_eq⟩
    | budgeted sizeField => exact ⟨Nat.zero_le _, nofun, hextent.measured_eq⟩
  | derived width content rule =>
    obtain ⟨n, -, hn⟩ := (fieldBytes_derived hk).1 h
    simp only [fieldSize, hk]
    exact .exact (Width.length_of_encode hn)

/-- The extent of a structure, from those of the structures that it refers to. -/
theorem Measures.structure (hn : Measures below nested)
    (hfixed : s.fixedSize = fixedSizeOf below s.fields)
    (hmin : s.minSize = minSizeOf below s.fields) (h : write nested s r = .ok bs) :
    Extent s.minSize s.fixedSize (size nested s r) bs := by
  obtain ⟨chunks, hchunks, rfl⟩ := write_eq_ok_iff.1 h
  have hfields := Extent.flatten (h := hchunks.imp fun f chunk hf => hn.field hf)
  have hlength : ∀ n, s.fixedSize = some n → chunks.flatten.length = n := by
    intro n hsome
    rw [hfixed] at hsome
    obtain ⟨sizes, hsizes, -, rfl⟩ := fixedSizeOf_eq_some_iff.1 hsome
    exact hfields.length_eq _ (by rw [hsizes, Option.map_some])
  constructor
  case least_le =>
    rw [hmin]
    exact Nat.le_trans (Nat.min_le_left _ _) hfields.least_le
  case length_eq => exact hlength
  case measured_eq =>
    intro hlt
    unfold size
    cases hsome : s.fixedSize with
    | some n => exact congrArg Except.ok (hlength n hsome).symm
    | none => exact hfields.measured_eq hlt

end

end Encode

/-- The encoders of a schema measure what they write. -/
theorem Layered.measures {structures : List Structure} (h : Layered structures) :
    Encode.Measures structures (interpret Encoder.unknown Encode.encoder structures) := by
  induction h with
  | nil =>
    intro type r bs hw
    cases hw
  | @cons s below _ hs _ ih =>
    intro type r bs hw
    simp only [Element.minSize, Element.fixedSize?, findStructure?_cons]
    by_cases hname : s.name = type
    · subst hname
      rw [interpret_head] at hw ⊢
      simp only [if_pos, Option.map_some, Option.getD_some, Option.bind_some]
      exact ih.structure hs.fixedSize_eq hs.minSize_eq hw
    · rw [interpret_tail _ _ _ hname] at hw ⊢
      simp only [if_neg hname]
      exact ih type r bs hw

namespace Schema

variable {schema : Schema} {name : String} {r : Record} {bs : Bytes}

/-- What is written is as long as it is measured to be. -/
theorem encodedSize_of_write (h : Layered schema.structures) (hw : schema.write name r = .ok bs)
    (hlen : bs.length < 2 ^ 64) : schema.encodedSize name r = .ok bs.length :=
  (h.measures name r bs hw).measured_eq hlen

/-- An encoding is what is written in a single pass, if that is not too long for a buffer. -/
theorem encode_eq_ok_iff (h : Layered schema.structures) :
    schema.encode name r = .ok bs ↔ schema.write name r = .ok bs ∧ bs.length < 2 ^ 63 := by
  unfold encode
  constructor
  · intro he
    obtain ⟨size, hsize, he⟩ := bind_eq_ok_iff.1 he
    obtain ⟨_, hbuffer, he⟩ := bind_eq_ok_iff.1 he
    obtain ⟨out, hout, he⟩ := bind_eq_ok_iff.1 he
    unfold checkMeasured at he
    split at he <;> cases he
    next hlen => exact ⟨hout, hlen ▸ checkBuffer_eq_ok_iff.1 hbuffer⟩
  · rintro ⟨hw, hlen⟩
    have hsize := encodedSize_of_write h hw (by omega)
    refine bind_eq_ok_iff.2 ⟨_, hsize, ?_⟩
    refine bind_eq_ok_iff.2 ⟨(), checkBuffer_eq_ok_iff.2 hlen, ?_⟩
    exact bind_eq_ok_iff.2 ⟨bs, hw, if_pos rfl⟩

end Schema

end WireSchema
