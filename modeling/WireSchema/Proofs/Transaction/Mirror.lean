import WireSchema.Proofs.Codec.Length
import WireSchema.Proofs.Codec.Reading
import WireSchema.Proofs.Transaction.Words

/-!
# Types that mirror layouts

A type on the wire mirrors a list of fields if reading, writing and measuring its values comes to
the same as reading, writing and measuring the records that they amount to, failures included. The
fields of a typed structure are mirrored part by part, as its instance is put together.

* `Plain` is a type that stands in a single field: a word or a blob.
* `Segment`: fields that are mirrored wherever they stand.
* `Tail`: fields that are mirrored where they end a given structure. Sizes and counts are derived
  there, and groups have items of other types.
* `Twin`: a whole structure and the type that mirrors it.
-/

namespace WireSchema

/-- The record has the given content in the given fields. -/
def Record.Has (r part : Record) : Prop := ∀ p ∈ part, r.get? p.1 = some p.2

theorem Record.Has.left {r a b : Record} (h : r.Has (a ++ b)) : r.Has a := fun p hp =>
  h p (List.mem_append_left _ hp)

theorem Record.Has.right {r a b : Record} (h : r.Has (a ++ b)) : r.Has b := fun p hp =>
  h p (List.mem_append_right _ hp)

/-! ### Sums of sizes -/

section Sizes

variable {α : Type} {size : α → Except Error Nat}

theorem addSize_add (total a b : Nat) :
    (addSize total a >>= fun t => addSize t b) = addSize total (a + b) := by
  unfold addSize
  by_cases h : total + a < 2 ^ 64
  · simp only [if_pos h, bind, Except.bind, Nat.add_assoc]
  · have hsum : ¬total + (a + b) < 2 ^ 64 := by omega
    simp only [if_neg h, if_neg hsum, bind, Except.bind]

theorem addSize_zero_bind (total n : Nat) :
    (addSize 0 n >>= fun m => addSize total m) = addSize total n := by
  unfold addSize
  rw [Nat.zero_add]
  by_cases h : n < 2 ^ 64
  · simp only [if_pos h, bind, Except.bind]
  · have hsum : ¬total + n < 2 ^ 64 := by omega
    simp only [if_neg h, if_neg hsum, bind, Except.bind]

theorem addSizes_append (total : Nat) (xs ys : List α) :
    addSizes size total (xs ++ ys) =
      addSizes size total xs >>= fun t => addSizes size t ys := by
  induction xs generalizing total with
  | nil => rfl
  | cons x xs ih => simp only [List.cons_append, addSizes, ih, bind_assoc]

/-- An item whose size is in range, or is found out of range by itself. -/
theorem addSizes_cons {x : α} {n : Nat} (h : size x = .ok n ∨ size x = addSize 0 n) (total : Nat)
    (xs : List α) :
    addSizes size total (x :: xs) = addSize total n >>= fun t => addSizes size t xs := by
  have hfirst : (size x >>= fun m => addSize total m) = addSize total n := by
    rcases h with h | h
    · rw [h]
      rfl
    · rw [h, addSize_zero_bind]
  rw [addSizes, ← hfirst, bind_assoc]

end Sizes

theorem Group.write_append {α : Type} (f : α → Except Error Bytes) (xs ys : List α) :
    Group.write f (xs ++ ys) = do
      let first ← Group.write f xs
      let others ← Group.write f ys
      return first ++ others := by
  simp only [Group.write, List.mapM_append, bind_assoc, pure_bind, List.flatten_append]

/-- The fields of a structure are measured one after the other. -/
theorem fieldSizes_cons {nested : String → Encoder} {owner : Structure} {r : Record} {f : Field}
    {n : Nat}
    (h : Encode.fieldSize nested owner f (r.get? f.name) = .ok n ∨
      Encode.fieldSize nested owner f (r.get? f.name) = addSize 0 n) (total : Nat)
    (fs : List Field) :
    addSizes (fun f => Encode.fieldSize nested owner f (r.get? f.name)) total (f :: fs) =
      addSize total n >>= fun t =>
        addSizes (fun f => Encode.fieldSize nested owner f (r.get? f.name)) t fs :=
  @addSizes_cons _ (fun f => Encode.fieldSize nested owner f (r.get? f.name)) f n h total fs

/-! ### Types in a single field -/

/-- A type whose values stand in a single field. -/
class Plain (ν : Type) where
  kind : FieldKind
  content : ν → Value

instance {υ : Type} [Word υ] : Plain υ where
  kind := .scalar (Word.width υ)
  content a := .uint (UInt64.ofNat (Word.toNat a))

instance {n : Nat} : Plain (Blob n) where
  kind := .fixedBlob n
  content b := .bytes b.data

/-- A type that is read, written and measured as its field is. -/
class LawfulPlain (ν : Type) [Wire ν] [Plain ν] : Prop where
  isContent (name : String) : Field.isContent ⟨name, Plain.kind ν⟩
  read_eq (read : String → Reader Record) (limits : Limits) (owner : Structure) (frame : Frame) :
    Decode.content read limits owner frame (Plain.kind ν) =
      (Wire.read : Reader ν) >>= fun a => pure (Plain.content a)
  write_eq (nested : String → Encoder) (owner : Structure) {r : Record} {name : String} {a : ν} :
    r.get? name = some (Plain.content a) →
      Encode.fieldBytes nested owner r ⟨name, Plain.kind ν⟩ = Wire.write a
  size_eq (nested : String → Encoder) (owner : Structure) (name : String) (content : Option Value)
    (a : ν) : Encode.fieldSize nested owner ⟨name, Plain.kind ν⟩ content = .ok (Wire.size a)

section Words

variable {υ : Type} [Word υ] [LawfulWord υ]

theorem LawfulWord.toNat_lt (a : υ) : Word.toNat a < 2 ^ 64 :=
  Nat.lt_of_le_of_lt (toNat_le a) (Width.maxValue_lt _)

/-- A word keeps its number as the content of a field. -/
theorem LawfulWord.toNat_ofNat_toNat (a : υ) :
    (UInt64.ofNat (Word.toNat a)).toNat = Word.toNat a :=
  UInt64.toNat_ofNat_of_lt' (toNat_lt a)

theorem LawfulWord.encode_eq (a : υ) : (Word.width υ).encode (Word.toNat a) = Wire.write a := by
  rw [write_eq]
  exact Width.encode_eq_ok_iff.2 ⟨toNat_le a, rfl⟩

/-- A scalar is read as the number of the word of its width. -/
theorem LawfulWord.scalar_eq :
    Reader.scalar (Word.width υ) =
      (Wire.read : Reader υ) >>= fun a => pure (UInt64.ofNat (Word.toNat a)) := by
  rw [read_eq, bind_assoc]
  funext c
  unfold Reader.scalar
  simp only [bind, EStateM.bind]
  cases ht : Reader.take (Word.width υ).bytes c with
  | error e c₁ => rfl
  | ok bs c₁ =>
    have hlen := (Reader.take_eq_ok_iff.1 ht).1
    have hle : leValue bs ≤ (Word.width υ).maxValue :=
      (Width.le_maxValue_iff _ _).2 (hlen ▸ leValue_lt bs)
    simp only [pure, EStateM.pure, toNat_ofNat hle]

instance : LawfulPlain υ where
  isContent _ := rfl
  read_eq read limits owner frame := by
    show (Reader.scalar (Word.width υ) >>= fun n => pure (Value.uint n)) = _
    rw [LawfulWord.scalar_eq, bind_assoc]
    rfl
  write_eq nested owner {r name a} h := by
    have hn : Encode.scalarContent owner ⟨name, Plain.kind υ⟩ (r.get? name) =
        .ok (UInt64.ofNat (Word.toNat a)) := Encode.scalarContent_eq_ok_iff.2 (.inr h)
    show (Encode.scalarContent owner ⟨name, Plain.kind υ⟩ (r.get? name) >>= fun n =>
      (Word.width υ).encode n.toNat) = _
    rw [hn, ← LawfulWord.encode_eq a]
    exact congrArg (Word.width υ).encode (LawfulWord.toNat_ofNat_toNat a)
  size_eq nested owner name content a := by
    rw [LawfulWord.size_eq]
    rfl

end Words

instance {n : Nat} : LawfulPlain (Blob n) where
  isContent _ := rfl
  read_eq read limits owner frame := (Blob.read_bind fun _ => rfl).symm
  write_eq nested owner {r name b} h := by
    have hb : Encode.bytesContent owner ⟨name, .fixedBlob n⟩ (r.get? name) = .ok b.data :=
      Encode.bytesContent_eq_ok_iff.2 (.inr h)
    show (Encode.bytesContent owner ⟨name, .fixedBlob n⟩ (r.get? name) >>= fun data =>
      fit data n) = _
    rw [hb]
    exact fit_self b.length_eq
  size_eq _ _ _ _ _ := rfl

/-! ### Fields that are mirrored anywhere -/

/-- Content fields that a type mirrors in all structures. -/
structure Segment {α : Type} [Wire α] (fs : List Field) (record : α → Record) : Prop where
  isContent : ∀ f ∈ fs, f.isContent
  names (a : α) : Record.names (record a) = fs.map (·.name)
  reads (read : String → Reader Record) (limits : Limits) (owner : Structure) (rest : List Field)
    (frame : Frame) : Decode.fields read limits owner (fs ++ rest) frame =
      Wire.read >>= fun a => Decode.fields read limits owner rest frame >>= fun others =>
        pure (record a ++ others)
  writes (nested : String → Encoder) (owner : Structure) {r : Record} {a : α} :
    r.Has (record a) → Group.write (Encode.fieldBytes nested owner r) fs = Wire.write a
  sizes (nested : String → Encoder) (owner : Structure) {r : Record} {a : α} (total : Nat) :
    r.Has (record a) →
      addSizes (fun f => Encode.fieldSize nested owner f (r.get? f.name)) total fs =
        addSize total (Wire.size a)

namespace Segment

variable {α β : Type} [Wire α] {fs gs : List Field} {ra : α → Record} {rb : β → Record}

theorem single {ν : Type} [Wire ν] [Plain ν] [LawfulPlain ν] (name : String) :
    Segment [⟨name, Plain.kind ν⟩] (fun a : ν => [(name, Plain.content a)]) where
  isContent f hf := by
    rw [List.mem_singleton.1 hf]
    exact LawfulPlain.isContent name
  names _ := rfl
  reads read limits owner rest frame := by
    rw [List.singleton_append, Decode.fields_content (LawfulPlain.isContent name),
      LawfulPlain.read_eq, bind_assoc]
    rfl
  writes nested owner {r a} h := by
    have hbytes := LawfulPlain.write_eq nested owner (h (name, Plain.content a) (by simp))
    rw [Group.write_cons, hbytes, Group.write_nil]
    simp only [pure_bind, List.append_nil]
    exact bind_pure _
  sizes nested owner {r a} total h := by
    have hsize := LawfulPlain.size_eq nested owner name (r.get? name) a
    exact (fieldSizes_cons (.inl hsize) total []).trans (bind_pure _)

theorem append [Wire β] (ha : Segment fs ra) (hb : Segment gs rb) :
    Segment (fs ++ gs) (fun p : α × β => ra p.1 ++ rb p.2) where
  isContent f hf := (List.mem_append.1 hf).elim (ha.isContent f) (hb.isContent f)
  names p := by
    rw [List.map_append, ← ha.names p.1, ← hb.names p.2]
    exact List.map_append
  reads read limits owner rest frame := by
    show _ = (Wire.read >>= fun a => Wire.read >>= fun b => pure (a, b)) >>= _
    rw [List.append_assoc, ha.reads]
    simp only [hb.reads, bind_assoc, pure_bind, List.append_assoc]
  writes nested owner {r p} h := by
    rw [Group.write_append, ha.writes nested owner h.left, hb.writes nested owner h.right]
    rfl
  sizes nested owner {r p} total h := by
    rw [addSizes_append, ha.sizes nested owner total h.left]
    simp only [hb.sizes nested owner _ h.right]
    exact addSize_add total _ _

/-- A type whose values amount to those of another mirrors the same fields. -/
theorem ofFields {γ : Type} (toFields : γ → α) {build : α → γ} (h : ∀ a, toFields (build a) = a)
    (ha : Segment fs ra) :
    @Segment γ (Wire.ofFields toFields build) fs (fun c => ra (toFields c)) :=
  letI := Wire.ofFields toFields build
  { isContent := ha.isContent
    names := fun c => ha.names (toFields c)
    reads := by
      intro read limits owner rest frame
      show _ = (Wire.read >>= fun a => pure (build a)) >>= _
      rw [ha.reads]
      simp only [bind_assoc, pure_bind, h]
    writes := fun nested owner _ _ => ha.writes nested owner
    sizes := fun nested owner _ _ => ha.sizes nested owner }

end Segment

/-! ### Fields that are mirrored where they end a structure -/

/-- The last fields of a structure, which a type mirrors. -/
structure Tail {α : Type} [Wire α] (read : String → Reader Record) (nested : String → Encoder)
    (owner : Structure) (fs : List Field) (record : α → Record) : Prop where
  names (a : α) : Record.names (record a) = (fs.filter (·.isContent)).map (·.name)
  reads (frame : Frame) :
    Decode.fields read {} owner fs frame = Wire.read >>= fun a => pure (record a)
  writes {r : Record} {a : α} :
    r.Has (record a) → Group.write (Encode.fieldBytes nested owner r) fs = Wire.write a
  sizes {r : Record} {a : α} (total : Nat) : r.Has (record a) →
    addSizes (fun f => Encode.fieldSize nested owner f (r.get? f.name)) total fs =
      addSize total (Wire.size a)

section Tails

variable {α β : Type} [Wire α] {read : String → Reader Record}
  {nested : String → Encoder} {owner : Structure} {fs gs : List Field} {ra : α → Record}
  {rb : β → Record}

theorem Segment.tail (ha : Segment fs ra) : Tail read nested owner fs ra where
  names a := by rw [ha.names, List.filter_eq_self.2 ha.isContent]
  reads frame := by
    have h := ha.reads read {} owner [] frame
    simpa only [List.append_nil, Decode.fields_nil, pure_bind] using h
  writes h := ha.writes nested owner h
  sizes total h := ha.sizes nested owner total h

theorem Segment.append_tail [Wire β] (ha : Segment fs ra) (hb : Tail read nested owner gs rb) :
    Tail read nested owner (fs ++ gs) (fun p : α × β => ra p.1 ++ rb p.2) where
  names p := by
    rw [List.filter_append, List.map_append, List.filter_eq_self.2 ha.isContent, ← ha.names p.1,
      ← hb.names p.2]
    exact List.map_append
  reads frame := by
    show _ = (Wire.read >>= fun a => Wire.read >>= fun b => pure (a, b)) >>= _
    rw [ha.reads]
    simp only [hb.reads, bind_assoc, pure_bind]
  writes h := by
    rw [Group.write_append, ha.writes nested owner h.left, hb.writes h.right]
    rfl
  sizes total h := by
    rw [addSizes_append, ha.sizes nested owner total h.left]
    simp only [hb.sizes _ h.right]
    exact addSize_add total _ _

theorem Tail.ofFields {γ : Type} (toFields : γ → α) {build : α → γ}
    (h : ∀ a, toFields (build a) = a) (ha : Tail read nested owner fs ra) :
    @Tail γ (Wire.ofFields toFields build) read nested owner fs (fun c => ra (toFields c)) :=
  letI := Wire.ofFields toFields build
  { names := fun c => ha.names (toFields c)
    reads := by
      intro frame
      show _ = (Wire.read >>= fun a => pure (build a)) >>= _
      rw [ha.reads]
      simp only [bind_assoc, pure_bind, h]
    writes := ha.writes
    sizes := ha.sizes }

end Tails

/-! ### Structures and the types that mirror them -/

/-- A structure that a type mirrors. -/
structure Twin {α : Type} [Wire α] (read : String → Reader Record) (nested : String → Encoder)
    (type : String) (record : α → Record) : Prop where
  reads : read type = Wire.read >>= fun a => pure (record a)
  writes (a : α) : (nested type).write (record a) = Wire.write a
  sizes (a : α) : (nested type).size (record a) = addSize 0 (Wire.size a)

/-- A run of items as the content of a group. -/
def Value.ofItems {α : Type} (record : α → Record) (items : List α) : Value :=
  .list (items.map fun a => .record (record a))

section Groups

variable {α : Type} [Wire α] {read : String → Reader Record} {nested : String → Encoder}
  {type : String} {record : α → Record} {owner : Structure} {frame : Frame}

theorem Twin.element_eq (ht : Twin read nested type record) :
    Decode.element read (.struct type) =
      (Wire.read : Reader α) >>= fun a => pure (.record (record a)) := by
  show (read type >>= fun r => pure (Value.record r)) = _
  rw [ht.reads, bind_assoc]
  rfl

theorem Twin.forward (ht : Twin read nested type record) (h : Reader.Forward (read type)) :
    Reader.Forward (Wire.read : Reader α) := by
  rw [ht.reads] at h
  exact Reader.forward_of_map h

/-- A group whose count is in the frame is read as so many items. -/
theorem Twin.read_counted (ht : Twin read nested type record) {sizeField : String} {n : UInt64}
    (hn : frame.lookup sizeField = some n) :
    Decode.content read {} owner frame (.repeated (.struct type) (.counted sizeField)) =
      Group.counted (Wire.read : Reader α) n.toNat >>= fun items =>
        pure (Value.ofItems record items) := by
  have hgov : Decode.governing owner frame sizeField = pure n.toNat := by
    simp only [Decode.governing, hn]
  have hlim : Decode.limited n.toNat (2 ^ 64 - 1) = pure () :=
    if_pos (Nat.le_sub_one_of_lt n.toNat_lt)
  simp only [Decode.content, Decode.group, hgov, hlim, pure_bind, ht.element_eq,
    Group.counted_map_eq, bind_assoc]
  rfl

/-- A group whose budget is in the frame is read as items of so many bytes. -/
theorem Twin.read_budgeted (ht : Twin read nested type record)
    (hforward : Reader.Forward (read type)) {sizeField : String} {n : UInt64}
    (hn : frame.lookup sizeField = some n) :
    Decode.content read {} owner frame (.repeated (.struct type) (.budgeted sizeField)) =
      Group.budgeted (Wire.read : Reader α) n.toNat >>= fun items =>
        pure (Value.ofItems record items) := by
  have hgov : Decode.governing owner frame sizeField = pure n.toNat := by
    simp only [Decode.governing, hn]
  -- items are at least a byte long, so that their number stays below the limit
  have hitem : ∀ k < n.toNat,
      (Decode.limited (k + 1) (2 ^ 64 - 1) >>= fun _ => Decode.element read (.struct type)) =
        (Wire.read : Reader α) >>= fun a => pure (.record (record a)) := by
    intro k hk
    have hlt := n.toNat_lt
    have hlim : Decode.limited (k + 1) (2 ^ 64 - 1) = pure () := if_pos (by omega)
    rw [hlim, pure_bind, ht.element_eq]
  simp only [Decode.content, Decode.group, hgov, pure_bind]
  rw [Group.budgetedWith_map_eq _ (ht.forward hforward) hitem, bind_assoc]
  simp only [pure_bind]
  rfl

/-- A group is written as its items. -/
theorem Twin.write_items (ht : Twin read nested type record) {name : String}
    {cardinality : Cardinality} (hc : ∀ count, cardinality ≠ .fixed count) {r : Record}
    {items : List α} (h : r.get? name = some (Value.ofItems record items)) :
    Encode.fieldBytes nested owner r ⟨name, .repeated (.struct type) cardinality⟩ =
      Wire.writeAll items := by
  have hitems : Encode.listContent owner ⟨name, .repeated (.struct type) cardinality⟩
      (r.get? name) = .ok (items.map fun a => .record (record a)) :=
    Encode.listContent_eq_ok_iff.2 (.inr h)
  have hcount : Encode.checkCount owner ⟨name, .repeated (.struct type) cardinality⟩ cardinality
      (items.map fun a => .record (record a)) = .ok () :=
    Encode.checkCount_eq_ok_iff.2 fun count hk => absurd hk (hc count)
  have hwrite : (items.map fun a => Value.record (record a)).mapM
      (Encode.item nested owner ⟨name, .repeated (.struct type) cardinality⟩ (.struct type)) =
        items.mapM Wire.write := by
    rw [List.mapM_map]
    exact mapM_congr fun a _ => ht.writes a
  simp only [Encode.fieldBytes, hitems, hcount, hwrite, bind, Except.bind]
  rfl

/-- A group is measured by its items. -/
theorem Twin.size_items (ht : Twin read nested type record) {name : String}
    {cardinality : Cardinality} (items : List α) :
    Encode.fieldSize nested owner ⟨name, .repeated (.struct type) cardinality⟩
      (some (Value.ofItems record items)) = addSize 0 (Wire.sizeAll items) := by
  -- the sum is the same from any total that is in range; out of range, both have failed
  have hsum : ∀ total, total < 2 ^ 64 →
      addSizes (Encode.itemSize nested owner ⟨name, .repeated (.struct type) cardinality⟩
        (.struct type)) total (items.map fun a => .record (record a)) =
          addSize total (Wire.sizeAll items) := by
    induction items with
    | nil =>
      intro total htotal
      exact (if_pos htotal).symm
    | cons a items ih =>
      intro total htotal
      have hfirst : Encode.itemSize nested owner
          ⟨name, .repeated (.struct type) cardinality⟩ (.struct type) (.record (record a)) =
            addSize 0 (Wire.size a) := ht.sizes a
      have hall : Wire.sizeAll (a :: items) = Wire.size a + Wire.sizeAll items := List.sum_cons
      rw [List.map_cons, addSizes_cons (.inr hfirst), hall, ← addSize_add]
      cases hadd : addSize total (Wire.size a) with
      | error e => rfl
      | ok t =>
        obtain ⟨ht, rfl⟩ := addSize_eq_ok_iff.1 hadd
        exact ih _ ht
  exact hsum 0 (Nat.two_pow_pos 64)

end Groups

/-! ### Sizes and counts that are derived -/

section Derived

variable {υ : Type} [Word υ] [LawfulWord υ] {read : String → Reader Record}
  {nested : String → Encoder} {below : List Structure} {owner : Structure} {frame : Frame}
  {name content : String} {rule : Derivation} {r : Record}

/-- A derived field is read as a word that is kept in the frame. -/
theorem fields_word (limits : Limits) (rest : List Field) :
    Decode.fields read limits owner (⟨name, .derived (Word.width υ) content rule⟩ :: rest) frame =
      (Wire.read : Reader υ) >>= fun n =>
        Decode.fields read limits owner rest ((name, UInt64.ofNat (Word.toNat n)) :: frame) := by
  rw [Decode.fields_derived rfl, LawfulWord.scalar_eq, bind_assoc]
  simp only [pure_bind]

/-- A derived field is written as the word of the number, which may be too large for it. -/
theorem fieldBytes_word :
    Encode.fieldBytes nested owner r ⟨name, .derived (Word.width υ) content rule⟩ =
      Encode.derive nested owner r content rule >>= fun n =>
        Word.derive υ n >>= fun d => Wire.write d := by
  show (Encode.derive nested owner r content rule >>= fun n => (Word.width υ).encode n) = _
  refine bind_congr fun n => ?_
  unfold Word.derive
  by_cases hn : n ≤ (Word.width υ).maxValue
  · rw [if_pos hn]
    show _ = Wire.write (Word.ofNat n : υ)
    rw [← LawfulWord.encode_eq, LawfulWord.toNat_ofNat hn]
  · rw [if_neg hn]
    exact if_neg hn

/-- A blob whose length is in the frame is read as so many bytes. -/
theorem content_variableBlob {sizeField : String} {n : UInt64}
    (hn : frame.lookup sizeField = some n) :
    Decode.content read {} owner frame (.variableBlob sizeField) =
      Reader.take n.toNat >>= fun data => pure (.bytes data) := by
  have hgov : Decode.governing owner frame sizeField = pure n.toNat := by
    simp only [Decode.governing, hn]
  have hlim : Decode.limited n.toNat (2 ^ 64 - 1) = pure () :=
    if_pos (Nat.le_sub_one_of_lt n.toNat_lt)
  simp only [Decode.content, hgov, hlim, pure_bind]

theorem derive_length (hs : owner.Sound below) {f : Field} (hf : f ∈ owner.fields) {data : Bytes}
    (h : r.get? f.name = some (.bytes data)) :
    Encode.derive nested owner r f.name .byteLength = .ok data.length :=
  (Encode.derive_byteLength hs hf).2 ⟨data, Encode.bytesContent_eq_ok_iff.2 (.inr h), rfl⟩

variable {α : Type} {record : α → Record} {items : List α}

theorem derive_count (hs : owner.Sound below) {f : Field} (hf : f ∈ owner.fields)
    (h : r.get? f.name = some (Value.ofItems record items)) :
    Encode.derive nested owner r f.name .itemCount = .ok items.length := by
  refine (Encode.derive_itemCount hs hf).2
    ⟨items.map fun a => .record (record a), Encode.listContent_eq_ok_iff.2 (.inr h), ?_⟩
  exact List.length_map _

theorem Twin.derive_size [Wire α] {type : String} (ht : Twin read nested type record)
    (hs : owner.Sound below) {cardinality : Cardinality}
    (hf : ⟨name, .repeated (.struct type) cardinality⟩ ∈ owner.fields)
    (h : r.get? name = some (Value.ofItems record items)) :
    Encode.derive nested owner r name .groupSize = addSize 0 (Wire.sizeAll items) := by
  refine (Encode.derive_groupSize hs hf).trans ?_
  rw [h]
  exact ht.size_items items

/-- The number of a derived field. -/
theorem derived_eq (hs : owner.Sound below) {width : Width}
    (hf : ⟨name, .derived width content rule⟩ ∈ owner.fields) :
    Encode.derived nested owner r name = Encode.derive nested owner r content rule := by
  have hfield : Encode.field owner name = .ok ⟨name, .derived width content rule⟩ :=
    Encode.field_eq_ok hs hf
  unfold Encode.derived
  rw [hfield]
  rfl

end Derived

end WireSchema
