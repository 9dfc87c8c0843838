import WireSchema.Proofs.Script
import WireSchema.Proofs.Transaction.Words

/-!
# Laws of types on the wire

A type on the wire comes with three functions that say the same thing in three ways: what is read is
written back to the bytes that were taken, what is written is read back, and a value is as long as
it is measured. Writing fails only where a size or a count does not fit its field.

* `Wire.Lawful`: the three functions of a type fit each other.
* `Wire.Groupable`: the values of a type can be put one after another.
* `Wire.LawfulUnless`: besides, a value is written unless one of its derived numbers is refused, and
  fails as the first of them does.
* `Wire.RoundTrips`: what this means for whole encodings.
* `Wire.Scripted`: a type is read by a script.

The laws of a structure follow from those of its fields: `Wire.LawfulUnless.pair` puts one type
after another, and `Wire.LawfulUnless.ofFields` gives a structure the laws of its fields.
-/

namespace WireSchema

/-! ### Failures -/

/-- The error of a computation that fails. -/
def failure? {α : Type} : Except Error α → Option Error
  | .ok _ => none
  | .error e => some e

section Failure

variable {α β : Type}

@[simp] theorem failure?_ok (a : α) : failure? (.ok a) = none := rfl

@[simp] theorem failure?_error (e : Error) : failure? (.error e : Except Error α) = some e := rfl

@[simp] theorem failure?_pure (a : α) : failure? (pure a) = none := rfl

theorem failure?_eq_some_iff {x : Except Error α} {e : Error} :
    failure? x = some e ↔ x = .error e := by
  cases x <;> simp

theorem failure?_eq_none_iff {x : Except Error α} : failure? x = none ↔ ∃ a, x = .ok a := by
  cases x <;> simp

/-- A step after which nothing can go wrong. -/
@[simp] theorem failure?_map (x : Except Error α) (f : α → β) :
    failure? (x >>= fun a => pure (f a)) = failure? x := by
  cases x <;> rfl

@[simp] theorem failure?_exceptMap (x : Except Error α) (f : α → β) :
    failure? (x.map f) = failure? x := by
  cases x <;> rfl

/-- A step that fails is seen before those after it. -/
theorem failure?_bind {x : Except Error α} {f : α → Except Error β} {later : Option Error}
    (h : ∀ a, x = .ok a → failure? (f a) = later) :
    failure? (x >>= f) = (failure? x).or later := by
  cases x with
  | error e => rfl
  | ok a => exact h a rfl

theorem failure?_bind_of_ok {x : Except Error α} {a : α} (h : x = .ok a)
    (f : α → Except Error β) : failure? (x >>= f) = failure? (f a) := by
  rw [h]
  rfl

/-- The first failure among some computations. -/
theorem findSome?_failure?_cons (x : Except Error α) (xs : List (Except Error α)) :
    (x :: xs).findSome? failure? = (failure? x).or (xs.findSome? failure?) := by
  cases x <;> rfl

end Failure

namespace Wire

variable {α β : Type} [Wire α] [Wire β]

/-! ### Encodings -/

theorem encode_eq_ok_iff {a : α} {bs : Bytes} :
    encode a = .ok bs ↔ size a < 2 ^ 63 ∧ write a = .ok bs ∧ bs.length = size a := by
  unfold encode checkSize checkBuffer checkMeasured
  by_cases h : size a < 2 ^ 63
  · have h' : size a < 2 ^ 64 := by omega
    rw [if_pos h, if_pos h']
    cases write a with
    | error e => simp [bind, Except.bind]
    | ok out =>
      by_cases hout : out.length = size a
      · simp only [bind, Except.bind, if_pos hout, Except.ok.injEq]
        constructor
        · rintro rfl
          exact ⟨h, rfl, hout⟩
        · rintro ⟨-, hbs, -⟩
          exact hbs
      · simp only [bind, Except.bind, if_neg hout, Except.ok.injEq]
        constructor
        · intro h'
          cases h'
        · rintro ⟨-, rfl, hbs⟩
          exact absurd hbs hout
  · rw [if_neg h]
    constructor
    · split <;> intro h' <;> cases h'
    · rintro ⟨h', -⟩
      exact absurd h' h

/-- A value that is too large for any buffer is not written at all. -/
theorem encode_of_le {a : α} (h : 2 ^ 63 ≤ size a) :
    encode a = .error (.abort .sizeOverflow) ∨ encode a = .error (.abort .bufferTooLarge) := by
  unfold encode checkSize checkBuffer
  rw [if_neg (Nat.not_lt.2 h)]
  split
  · exact .inr rfl
  · exact .inl rfl

/-- A value that is measured rightly fails as its writer does. -/
theorem encode_eq_write {a : α} (h : size a < 2 ^ 63)
    (hlength : ∀ bs, write a = .ok bs → bs.length = size a) : encode a = write a := by
  cases hw : write a with
  | ok bs => exact encode_eq_ok_iff.2 ⟨h, hw, hlength bs hw⟩
  | error e =>
    have h' : size a < 2 ^ 64 := by omega
    unfold encode checkSize checkBuffer
    rw [if_pos h, if_pos h', hw]
    rfl

/-! ### The laws -/

/-- The functions of a type on the wire fit each other. -/
structure Lawful (α : Type) [Wire α] : Prop where
  /-- What is read is written back to the bytes that were taken. -/
  write_of_read {c c' : Cursor} {a : α} :
    read c = .ok a c' → ∃ bs, c.Passes bs c' ∧ write a = .ok bs
  /-- What is written is read back, wherever it stands. -/
  reads_of_write {a : α} {bs : Bytes} : write a = .ok bs → Reader.Reads read bs a
  /-- What is written is as long as it was measured. -/
  length_of_write {a : α} {bs : Bytes} : write a = .ok bs → bs.length = size a

/-- What a group asks of its items: a value that is written takes as many bytes as it was measured,
at least one, and is read back from them, whatever follows. -/
structure Groupable (α : Type) [Wire α] : Prop where
  length_of_write {a : α} {bs : Bytes} : write a = .ok bs → bs.length = size a
  size_pos {a : α} {bs : Bytes} : write a = .ok bs → 0 < size a
  reads_of_write {a : α} {bs : Bytes} : write a = .ok bs → Reader.Reads read bs a

/-- A lawful type whose values are written unless one of their derived numbers, listed in the order
of the wire, is refused. A value fails as the first of them does that does not fit its field. -/
structure LawfulUnless {α : Type} [Wire α] (derived : α → List (Except Error Nat)) : Prop
    extends Lawful α where
  failure_write {a : α} : size a < 2 ^ 63 →
    failure? (write a) = (derived a).findSome? failure?
  overflow {a : α} : size a < 2 ^ 63 → ∀ e, .error e ∈ derived a →
    ∃ value width, e = .overflow value width

namespace LawfulUnless

variable {da : α → List (Except Error Nat)} {db : β → List (Except Error Nat)}

/-- A type without derived numbers, all of whose values are written. -/
theorem of_writes (h : Lawful α) (hwrite : ∀ a : α, ∃ bs, write a = .ok bs) :
    LawfulUnless fun _ : α => [] where
  toLawful := h
  failure_write {a} _ := failure?_eq_none_iff.2 (hwrite a)
  overflow _ e he := by cases he

theorem pair (ha : LawfulUnless da) (hb : LawfulUnless db) :
    LawfulUnless fun p : α × β => da p.1 ++ db p.2 where
  write_of_read {c c' p} h := by
    obtain ⟨a, c₁, hra, h⟩ := Reader.bind_eq_ok_iff.1 h
    obtain ⟨b, hrb, rfl⟩ := Reader.map_eq_ok_iff.1 h
    obtain ⟨bs, hbs, hwa⟩ := ha.write_of_read hra
    obtain ⟨cs, hcs, hwb⟩ := hb.write_of_read hrb
    refine ⟨bs ++ cs, hbs.trans hcs, ?_⟩
    exact bind_eq_ok_iff.2 ⟨bs, hwa, bind_eq_ok_iff.2 ⟨cs, hwb, rfl⟩⟩
  reads_of_write {p bs} h := by
    obtain ⟨first, hwa, h⟩ := bind_eq_ok_iff.1 h
    obtain ⟨second, hwb, h⟩ := bind_eq_ok_iff.1 h
    rw [← pure_eq_ok_iff.1 h]
    exact (ha.reads_of_write hwa).bind ((hb.reads_of_write hwb).map _)
  length_of_write {p bs} h := by
    obtain ⟨first, hwa, h⟩ := bind_eq_ok_iff.1 h
    obtain ⟨second, hwb, h⟩ := bind_eq_ok_iff.1 h
    rw [← pure_eq_ok_iff.1 h, List.length_append, ha.length_of_write hwa, hb.length_of_write hwb]
    rfl
  failure_write {p} h := by
    have hsize : size p = size p.1 + size p.2 := rfl
    rw [List.findSome?_append, ← ha.failure_write (by omega), ← hb.failure_write (by omega)]
    exact failure?_bind fun first _ => failure?_map _ _
  overflow {p} h e he := by
    have hsize : size p = size p.1 + size p.2 := rfl
    rcases List.mem_append.1 he with he | he
    · exact ha.overflow (by omega) e he
    · exact hb.overflow (by omega) e he

/-- A structure has the laws of its fields. -/
theorem ofFields {γ : Type} (toFields : γ → α) {build : α → γ}
    (hbuild : ∀ g, build (toFields g) = g) (hfields : ∀ a, toFields (build a) = a)
    (ha : LawfulUnless da) :
    @LawfulUnless γ (.ofFields toFields build) fun g => da (toFields g) := by
  let _ : Wire γ := .ofFields toFields build
  constructor
  case toLawful =>
    constructor
    case write_of_read =>
      intro c c' g h
      obtain ⟨a, hr, rfl⟩ := Reader.map_eq_ok_iff.1 h
      obtain ⟨bs, hbs, hw⟩ := ha.write_of_read hr
      refine ⟨bs, hbs, ?_⟩
      show write (toFields (build a)) = .ok bs
      rw [hfields, hw]
    case reads_of_write =>
      intro g bs h
      have := (ha.reads_of_write h).map build
      rwa [hbuild] at this
    case length_of_write =>
      intro g bs h
      exact ha.length_of_write h
  case failure_write =>
    intro g h
    exact ha.failure_write h
  case overflow =>
    intro g h
    exact ha.overflow h

end LawfulUnless

/-! ### Blobs and words -/

theorem Lawful.blob (n : Nat) : Lawful (Blob n) where
  write_of_read {c c' b} h := by
    have h : Blob.read n c = .ok b c' := h
    unfold Blob.read at h
    split at h
    · next hlen =>
      cases h
      refine ⟨c.rest.take n, ⟨(List.take_append_drop n c.rest).symm, ?_⟩, rfl⟩
      rw [hlen]
    · cases h
  reads_of_write {b bs} h c c' hc := by
    cases h
    have htake : c.rest.take n = b.data := by
      rw [← hc.take_eq, b.length_eq]
    have hlen : (c.rest.take n).length = n := by
      rw [htake, b.length_eq]
    show Blob.read n c = .ok b c'
    rw [Blob.read, dif_pos hlen, hc.eq_mk, b.length_eq]
    simp only [htake]
  length_of_write {b bs} h := by
    cases h
    exact b.length_eq

section Words

variable (υ : Type) [Word υ] [LawfulWord υ]

theorem Lawful.word : Lawful υ where
  write_of_read {c c' a} h := by
    rw [LawfulWord.read_eq, Reader.map_eq_ok_iff] at h
    obtain ⟨bs, ht, rfl⟩ := h
    obtain ⟨hlen, hbs⟩ := Reader.take_eq_ok_iff.1 ht
    have hle : leValue bs ≤ (Word.width υ).maxValue := by
      rw [Width.le_maxValue_iff, ← hlen]
      exact leValue_lt bs
    refine ⟨bs, hbs, ?_⟩
    rw [LawfulWord.write_eq, LawfulWord.toNat_ofNat hle, ← hlen, leBytes_leValue]
  reads_of_write {a bs} h := by
    rw [LawfulWord.write_eq] at h
    cases h
    have hvalue : leValue (leBytes (Word.width υ).bytes (Word.toNat a)) = Word.toNat a :=
      leValue_leBytes (((Word.width υ).le_maxValue_iff _).1 (LawfulWord.toNat_le a))
    have hread := (Reader.reads_take (leBytes (Word.width υ).bytes (Word.toNat a))).map
      fun bs => (Word.ofNat (leValue bs) : υ)
    rwa [length_leBytes, hvalue, LawfulWord.ofNat_toNat, ← LawfulWord.read_eq] at hread
  length_of_write {a bs} h := by
    rw [LawfulWord.write_eq] at h
    cases h
    rw [length_leBytes, LawfulWord.size_eq]

theorem LawfulUnless.word : LawfulUnless fun _ : υ => [] :=
  .of_writes (.word υ) fun a => ⟨_, LawfulWord.write_eq a⟩

end Words

theorem LawfulUnless.blob (n : Nat) : LawfulUnless fun _ : Blob n => [] :=
  .of_writes (.blob n) fun b => ⟨b.data, rfl⟩

/-! ### Scripts -/

/-- A type that is read by a script. -/
class Scripted (α : Type) [Wire α] : Prop where
  scripted_read : Reader.Scripted (read : Reader α)

theorem forward_read (α : Type) [Wire α] [Scripted α] : Reader.Forward (read : Reader α) :=
  Scripted.scripted_read.elim Reader.compositional_forward

namespace Scripted

theorem word (υ : Type) [Word υ] [LawfulWord υ] : Scripted υ where
  scripted_read := by
    rw [LawfulWord.read_eq]
    exact Reader.compositional_scripted.map (Reader.compositional_scripted.take _) _

instance : Scripted UInt8 := word UInt8

instance : Scripted UInt16 := word UInt16

instance : Scripted UInt32 := word UInt32

instance : Scripted UInt64 := word UInt64

/-- The bytes that were taken are as many as were asked for. -/
instance blob (n : Nat) : Scripted (Blob n) where
  scripted_read := by
    refine ⟨.bind (.take n) fun bs =>
      if h : bs.length = n then .pure ⟨bs, h⟩ else .throw (.outOfRange n bs.length), ?_⟩
    refine (Blob.read_bind (f := pure) fun b => ?_).symm.trans (bind_pure _)
    dsimp only
    rw [dif_pos b.length_eq]
    rfl

instance pair [Scripted α] [Scripted β] : Scripted (α × β) where
  scripted_read :=
    Reader.compositional_scripted.bind scripted_read fun _ =>
      Reader.compositional_scripted.map scripted_read _

theorem ofFields {γ : Type} [Scripted α] (toFields : γ → α) (build : α → γ) :
    @Scripted γ (.ofFields toFields build) :=
  let _ : Wire γ := .ofFields toFields build
  ⟨Reader.compositional_scripted.map scripted_read build⟩

end Scripted

/-! ### Groups -/

section Groups

variable {items : List α} {bs : Bytes}

theorem writeAll_eq_ok_iff :
    writeAll items = .ok bs ↔
      ∃ chunks, List.Forall₂ (fun a chunk => write a = .ok chunk) items chunks ∧
        bs = chunks.flatten := by
  unfold writeAll Group.write
  simp only [bind_eq_ok_iff, pure_eq_ok_iff, mapM_eq_ok_iff, eq_comm (a := bs)]

theorem writeAll_cons (a : α) (items : List α) :
    writeAll (a :: items) = do
      let first ← write a
      let others ← writeAll items
      return first ++ others :=
  Group.write_cons _ _ _

theorem sizeAll_cons (a : α) (items : List α) : sizeAll (a :: items) = size a + sizeAll items := by
  unfold sizeAll
  rw [List.map_cons, List.sum_cons]

theorem sizeAll_le {n : Nat} (h : ∀ a : α, size a ≤ n) : sizeAll items ≤ items.length * n := by
  induction items with
  | nil => exact Nat.zero_le _
  | cons a items ih =>
    have := h a
    rw [sizeAll_cons, List.length_cons, Nat.succ_mul]
    omega

theorem size_le_sizeAll {a : α} (h : a ∈ items) : size a ≤ sizeAll items := by
  induction items with
  | nil => cases h
  | cons b items ih =>
    rw [sizeAll_cons]
    rcases List.mem_cons.1 h with rfl | h
    · omega
    · have := ih h
      omega

namespace Groupable

theorem length_of_writeAll (h : Groupable α) (hw : writeAll items = .ok bs) :
    bs.length = sizeAll items := by
  obtain ⟨chunks, hchunks, rfl⟩ := writeAll_eq_ok_iff.1 hw
  clear hw
  induction hchunks with
  | nil => rfl
  | cons hab _ ih => rw [List.flatten_cons, List.length_append, ih, h.length_of_write hab,
      sizeAll_cons]

/-- Items are read back from their chunks, none of which is empty. -/
theorem reads_chunks (h : Groupable α) {chunks : List Bytes}
    (hchunks : List.Forall₂ (fun a chunk => write a = .ok chunk) items chunks) :
    List.Forall₂ (fun (a : α) bs => bs ≠ [] ∧ Reader.Reads read bs a) items chunks := by
  refine hchunks.imp fun a chunk hw => ⟨?_, h.reads_of_write hw⟩
  rw [← List.length_pos_iff, h.length_of_write hw]
  exact h.size_pos hw

theorem reads_counted (h : Groupable α) (hw : writeAll items = .ok bs) :
    Reader.Reads (Group.counted read items.length) bs items := by
  obtain ⟨chunks, hchunks, rfl⟩ := writeAll_eq_ok_iff.1 hw
  exact Group.reads_counted (h.reads_chunks hchunks)

theorem reads_budgeted (h : Groupable α) (hw : writeAll items = .ok bs) :
    Reader.Reads (Group.budgeted read bs.length) bs items := by
  obtain ⟨chunks, hchunks, rfl⟩ := writeAll_eq_ok_iff.1 hw
  refine Group.reads_budgetedWith ?_ (Nat.le_refl _)
  exact (h.reads_chunks hchunks).imp fun a chunk hab => ⟨hab.1, fun _ _ => hab.2⟩

end Groupable

namespace Lawful

/-- The items of a run are written back to the bytes of the run. -/
theorem writeAll_of_run (h : Lawful α) {k : Nat} {c c' : Cursor}
    (hrun : Group.Run (fun _ => read) k c items c') :
    ∃ bs, c.Passes bs c' ∧ writeAll items = .ok bs := by
  obtain ⟨chunks, hchunks, hpass⟩ := hrun.chunks (P := fun a bs => write a = .ok bs)
    (fun _ _ _ _ _ hr => h.write_of_read hr) (Nat.lt_succ_self _)
  exact ⟨_, hpass, writeAll_eq_ok_iff.2 ⟨chunks, hchunks.imp fun _ _ hab => hab.1, rfl⟩⟩

/-- The values of a lawful type, none of which is empty, go together as a group. -/
theorem groupable (h : Lawful α) (hpos : ∀ a : α, 0 < size a) : Groupable α where
  length_of_write := h.length_of_write
  size_pos {a _} _ := hpos a
  reads_of_write := h.reads_of_write

end Lawful

namespace LawfulUnless

variable {da : α → List (Except Error Nat)}

theorem failure_writeAll (h : LawfulUnless da) (hsize : sizeAll items < 2 ^ 63) :
    failure? (writeAll items) = (items.flatMap da).findSome? failure? := by
  induction items with
  | nil => rfl
  | cons a items ih =>
    rw [sizeAll_cons] at hsize
    rw [writeAll_cons, List.flatMap_cons, List.findSome?_append, ← ih (by omega),
      ← h.failure_write (by omega)]
    exact failure?_bind fun first _ => failure?_map _ _

theorem overflow_all (h : LawfulUnless da) (hsize : sizeAll items < 2 ^ 63) {e : Error}
    (he : .error e ∈ items.flatMap da) : ∃ value width, e = .overflow value width := by
  obtain ⟨a, ha, he⟩ := List.mem_flatMap.1 he
  have := size_le_sizeAll ha
  exact h.overflow (by omega) e he

end LawfulUnless

end Groups

/-! ### Whole encodings -/

/-- What is read is written back to the same bytes, what is written is read back, no encoding is of
another length than it was measured, and only a size or a count that does not fit is refused. -/
structure RoundTrips {α : Type} [Wire α] (derived : α → List (Except Error Nat)) : Prop where
  /-- A value is written to the part of the input from which it was read. -/
  encode_of_read (input : Bytes) {start stop : Nat} {rest : Bytes} {a : α} :
    input.length < 2 ^ 63 → read ⟨start, input.drop start⟩ = .ok a ⟨stop, rest⟩ →
      start ≤ stop ∧ rest = input.drop stop ∧
        encode a = .ok ((input.drop start).take (stop - start))
  /-- A value is read from its encoding, whatever follows it. -/
  read_of_encode {a : α} {bs : Bytes} : encode a = .ok bs → ∀ (rest : Bytes) (offset : Nat),
    read ⟨offset, bs ++ rest⟩ = .ok a ⟨offset + bs.length, rest⟩
  length_of_write {a : α} {bs : Bytes} : write a = .ok bs → bs.length = size a
  /-- The check of the length never fails. -/
  encode_ne_mismatch (a : α) : encode a ≠ .error (.abort .sizeMismatch)
  /-- A value fails as the first of its derived numbers that is refused. -/
  encode_eq_error_iff {a : α} {e : Error} : size a < 2 ^ 63 →
    (encode a = .error e ↔ ∃ before after, derived a = before ++ .error e :: after ∧
      ∀ d ∈ before, ∃ n, d = .ok n)
  /-- A derived number is refused because it does not fit its field. -/
  overflow {a : α} : size a < 2 ^ 63 → ∀ e, .error e ∈ derived a →
    ∃ value width, e = .overflow value width
  /-- A value that no buffer can hold is not written. -/
  encode_of_le {a : α} : 2 ^ 63 ≤ size a →
    encode a = .error (.abort .sizeOverflow) ∨ encode a = .error (.abort .bufferTooLarge)

theorem LawfulUnless.encode_eq_error_iff {derived : α → List (Except Error Nat)}
    (h : LawfulUnless derived) {a : α} {e : Error} (hsize : size a < 2 ^ 63) :
    encode a = .error e ↔ ∃ before after, derived a = before ++ .error e :: after ∧
      ∀ d ∈ before, ∃ n, d = .ok n := by
  rw [encode_eq_write hsize fun _ => h.length_of_write, ← failure?_eq_some_iff,
    h.failure_write hsize, List.findSome?_eq_some_iff]
  constructor
  · rintro ⟨before, d, after, heq, hd, hbefore⟩
    rw [failure?_eq_some_iff] at hd
    exact ⟨before, after, by rw [heq, hd], fun d hd => failure?_eq_none_iff.1 (hbefore d hd)⟩
  · rintro ⟨before, after, heq, hbefore⟩
    exact ⟨before, .error e, after, heq, rfl, fun d hd => failure?_eq_none_iff.2 (hbefore d hd)⟩

/-- A value is refused where one of its derived numbers is, and only there. -/
structure RoundTripsExactly {α : Type} [Wire α] (derived : α → List (Except Error Nat)) : Prop
    extends RoundTrips derived where
  refused_iff (a : α) : (∃ e, encode a = .error e) ↔ ∃ e, .error e ∈ derived a

/-- The laws of a type carry over to whole encodings. -/
theorem LawfulUnless.roundTrips {derived : α → List (Except Error Nat)}
    (h : LawfulUnless derived) : RoundTrips derived where
  encode_of_read input start stop rest a hinput hread := by
    obtain ⟨bs, hpass, hwrite⟩ := h.write_of_read hread
    have hrest : input.drop start = bs ++ rest := hpass.rest
    have hstop : stop = start + bs.length := hpass.offset
    have hdiff : stop - start = bs.length := by omega
    have hlen : bs.length < 2 ^ 63 := by
      have := hpass.length_le
      simp only [List.length_drop] at this
      omega
    refine ⟨by omega, ?_, ?_⟩
    · rw [hstop, ← List.drop_drop, hrest, List.drop_left]
    · rw [hdiff, hrest, List.take_left]
      have hsize := h.length_of_write hwrite
      exact encode_eq_ok_iff.2 ⟨by omega, hwrite, hsize⟩
  read_of_encode {a bs} hencode rest offset :=
    h.reads_of_write (encode_eq_ok_iff.1 hencode).2.1 _ _ ⟨rfl, rfl⟩
  length_of_write := h.length_of_write
  encode_ne_mismatch a hencode := by
    by_cases hsize : size a < 2 ^ 63
    · obtain ⟨before, after, heq, -⟩ := (h.encode_eq_error_iff hsize).1 hencode
      obtain ⟨value, width, he⟩ := h.overflow hsize (.abort .sizeMismatch) (by rw [heq]; simp)
      cases he
    · rcases Wire.encode_of_le (Nat.not_lt.1 hsize) with he | he <;>
        · rw [hencode] at he
          cases he
  encode_eq_error_iff := h.encode_eq_error_iff
  overflow := h.overflow
  encode_of_le := Wire.encode_of_le

/-- Where numbers that fit keep a value small enough for a buffer, nothing else is refused. -/
theorem LawfulUnless.roundTripsExactly {derived : α → List (Except Error Nat)}
    (h : LawfulUnless derived)
    (hbound : ∀ a, (∀ d ∈ derived a, ∃ n, d = .ok n) → size a < 2 ^ 63) :
    RoundTripsExactly derived where
  toRoundTrips := h.roundTrips
  refused_iff a := by
    by_cases hfit : ∀ d ∈ derived a, ∃ n, d = .ok n
    · have hsize := hbound a hfit
      constructor
      · rintro ⟨e, hencode⟩
        obtain ⟨before, after, heq, -⟩ := (h.encode_eq_error_iff hsize).1 hencode
        exact ⟨e, by rw [heq]; simp⟩
      · rintro ⟨e, he⟩
        obtain ⟨n, hn⟩ := hfit _ he
        cases hn
    · have hrefused : ∃ e, .error e ∈ derived a := by
        push Not at hfit
        obtain ⟨d, hd, hn⟩ := hfit
        cases d with
        | error e => exact ⟨e, hd⟩
        | ok n => exact absurd rfl (hn n)
      refine ⟨fun _ => hrefused, fun _ => ?_⟩
      cases hencode : encode a with
      | error e => exact ⟨e, rfl⟩
      | ok bs =>
        -- a value that is written is small enough, and none of its numbers is refused
        obtain ⟨hsize, hwrite, -⟩ := encode_eq_ok_iff.1 hencode
        have hnone := h.failure_write hsize
        rw [hwrite, failure?_ok, eq_comm, List.findSome?_eq_none_iff] at hnone
        obtain ⟨e, he⟩ := hrefused
        exact absurd (hnone _ he) (by simp)

/-- Nothing is refused of a type with a fixed size that fits into a buffer. -/
theorem LawfulUnless.roundTripsExactly_of_size {derived : α → List (Except Error Nat)} {n : Nat}
    (h : LawfulUnless derived) (hn : n < 2 ^ 63) (hsize : ∀ a : α, size a = n) :
    RoundTripsExactly derived :=
  h.roundTripsExactly fun a _ => by
    rw [hsize]
    exact hn

end Wire

end WireSchema
