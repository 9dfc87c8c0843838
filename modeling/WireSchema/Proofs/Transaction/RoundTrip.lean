import WireSchema.Proofs.Transaction.Scripted

/-!
# Transactions round trip

Every typed structure is lawful, and a value of it is written unless one of its derived numbers is
refused. A type with fields only has the laws of its fields. A body whose numbers come before the
content that they govern is taken apart here: when it is read the numbers govern the content, and
when it is written they are computed from it, so that they are the same.

* `derived` lists the derived numbers of a body or a transaction, in the order of the wire.
* `transactions_roundTrip` collects what holds of all of them.
-/

namespace WireSchema

open Wire (LawfulUnless RoundTrips RoundTripsExactly)

/-! ### Headers -/

theorem SizePrefixedEntity.lawful : LawfulUnless fun _ : SizePrefixedEntity => [] :=
  .ofFields (fun e : SizePrefixedEntity => e.size) (fun _ => rfl) (fun _ => rfl) (.word UInt32)

theorem VerifiableEntity.lawful : LawfulUnless fun _ : VerifiableEntity => [] :=
  .ofFields (fun e : VerifiableEntity => e.signature) (fun _ => rfl) (fun _ => rfl) (.blob 64)

theorem EntityBody.lawful : LawfulUnless fun _ : EntityBody => [] :=
  .ofFields (fun e : EntityBody => (e.signer, e.version, e.entityType)) (fun _ => rfl)
    (fun _ => rfl) (.pair (.blob 32) (.pair (.word UInt16) (.word UInt16)))

theorem Transaction.lawful : LawfulUnless fun _ : Transaction => [] :=
  .ofFields (fun t : Transaction => (t.entity, t.verifiable, t.body, t.fee, t.deadline))
    (fun _ => rfl) (fun _ => rfl)
    (.pair SizePrefixedEntity.lawful (.pair VerifiableEntity.lawful (.pair EntityBody.lawful
      (.pair (.word UInt64) (.word UInt64)))))

theorem EmbeddedTransaction.lawful : LawfulUnless fun _ : EmbeddedTransaction => [] :=
  .ofFields (fun t : EmbeddedTransaction => (t.entity, t.body)) (fun _ => rfl) (fun _ => rfl)
    (.pair SizePrefixedEntity.lawful EntityBody.lawful)

/-! ### Numbers that are derived -/

section Derived

variable {υ : Type} [Word υ]

/-- A number that is refused does not fit its field. -/
theorem Word.overflow_of_derive {n : Nat} {e : Error}
    (h : .error e = (Word.derive υ n).map Word.toNat) : e = .overflow n (Word.width υ).bytes := by
  unfold Word.derive at h
  split at h
  · cases h
  · cases h
    rfl

/-- A number that is not refused fits its field. -/
theorem Word.le_of_derive {n k : Nat} (h : (Word.derive υ n).map Word.toNat = .ok k) :
    n ≤ (Word.width υ).maxValue := by
  unfold Word.derive at h
  split at h
  · assumption
  · cases h

/-- The size of items that fit into the memory of a machine is the number of their bytes. -/
theorem Wire.sizeAs_eq_derive {α : Type} [Wire α] {items : List α}
    (h : Wire.sizeAll items < 2 ^ 64) :
    Wire.sizeAs υ items = Word.derive υ (Wire.sizeAll items) := by
  unfold Wire.sizeAs checkSize
  rw [if_pos h]
  rfl

variable [LawfulWord υ]

theorem Wire.countAs_eq_ok_iff {α : Type} {items : List α} {u : υ} :
    Wire.countAs υ items = .ok u ↔ items.length = Word.toNat u :=
  Word.derive_eq_ok_iff

theorem Wire.sizeAs_eq_ok_iff {α : Type} [Wire α] {items : List α} {u : υ} :
    Wire.sizeAs υ items = .ok u ↔ Wire.sizeAll items = Word.toNat u := by
  constructor
  · intro h
    obtain ⟨_, -, h⟩ := bind_eq_ok_iff.1 h
    exact Word.derive_eq_ok_iff.1 h
  · intro h
    have hlt : Word.toNat u < 2 ^ 64 :=
      Nat.lt_of_le_of_lt (LawfulWord.toNat_le u) (Word.width υ).maxValue_lt
    rw [Wire.sizeAs_eq_derive (h ▸ hlt)]
    exact Word.derive_eq_ok_iff.2 h

end Derived

/-! ### Transfers -/

theorem Mosaic.lawful : LawfulUnless fun _ : Mosaic => [] :=
  .ofFields (fun m : Mosaic => (m.mosaicId, m.amount)) (fun _ => rfl) (fun _ => rfl)
    (.pair (.blob 8) (.blob 8))

theorem Mosaic.size_eq (m : Mosaic) : Wire.size m = 16 := rfl

theorem Mosaic.groupable : Wire.Groupable Mosaic :=
  lawful.groupable fun m => by
    rw [size_eq]
    omega

namespace TransferTransactionBody

variable {b : TransferTransactionBody}

/-- The derived numbers of a transfer. -/
def derived (b : TransferTransactionBody) : List (Except Error Nat) :=
  [b.messageSize.map Word.toNat, b.mosaicsCount.map Word.toNat]

theorem size_eq (b : TransferTransactionBody) :
    Wire.size b = 28 + b.message.length + Wire.sizeAll b.mosaics := rfl

theorem write_eq_ok_iff {bs : Bytes} :
    Wire.write b = .ok bs ↔ ∃ (messageSize : UInt16) (mosaicsCount : UInt8) (mosaics : Bytes),
      b.message.length = messageSize.toNat ∧ b.mosaics.length = mosaicsCount.toNat ∧
        Wire.writeAll b.mosaics = .ok mosaics ∧
        bs = b.recipient.data ++ leBytes 2 messageSize.toNat ++ leBytes 1 mosaicsCount.toNat ++
          b.message ++ mosaics := by
  constructor
  · intro h
    obtain ⟨_, hr, h⟩ := bind_eq_ok_iff.1 h
    cases hr
    obtain ⟨messageSize, hms, h⟩ := bind_eq_ok_iff.1 h
    obtain ⟨_, hwms, h⟩ := bind_eq_ok_iff.1 h
    obtain ⟨mosaicsCount, hmc, h⟩ := bind_eq_ok_iff.1 h
    obtain ⟨_, hwmc, h⟩ := bind_eq_ok_iff.1 h
    obtain ⟨mosaics, hm, h⟩ := bind_eq_ok_iff.1 h
    rw [LawfulWord.write_eq] at hwms hwmc
    cases hwms
    cases hwmc
    cases h
    exact ⟨messageSize, mosaicsCount, mosaics, Word.derive_eq_ok_iff.1 hms,
      Wire.countAs_eq_ok_iff.1 hmc, hm, rfl⟩
  · rintro ⟨messageSize, mosaicsCount, mosaics, hms, hmc, hm, rfl⟩
    refine bind_eq_ok_iff.2 ⟨_, rfl, ?_⟩
    refine bind_eq_ok_iff.2 ⟨messageSize, Word.derive_eq_ok_iff.2 hms, ?_⟩
    refine bind_eq_ok_iff.2 ⟨_, LawfulWord.write_eq messageSize, ?_⟩
    refine bind_eq_ok_iff.2 ⟨mosaicsCount, Wire.countAs_eq_ok_iff.2 hmc, ?_⟩
    refine bind_eq_ok_iff.2 ⟨_, LawfulWord.write_eq mosaicsCount, ?_⟩
    exact bind_eq_ok_iff.2 ⟨mosaics, hm, rfl⟩

theorem lawful : LawfulUnless derived where
  write_of_read {c c' b} h := by
    obtain ⟨recipient, c₁, hr, h⟩ := Reader.bind_eq_ok_iff.1 h
    obtain ⟨messageSize, c₂, hms, h⟩ := Reader.bind_eq_ok_iff.1 h
    obtain ⟨mosaicsCount, c₃, hmc, h⟩ := Reader.bind_eq_ok_iff.1 h
    obtain ⟨message, c₄, hm, h⟩ := Reader.bind_eq_ok_iff.1 h
    obtain ⟨mosaics, hg, rfl⟩ := Reader.map_eq_ok_iff.1 h
    obtain ⟨rs, hrs, hwr⟩ := (Wire.Lawful.blob 25).write_of_read hr
    obtain ⟨ss, hss, hws⟩ := (Wire.Lawful.word UInt16).write_of_read hms
    obtain ⟨cs, hcs, hwc⟩ := (Wire.Lawful.word UInt8).write_of_read hmc
    obtain ⟨hmessage, hms⟩ := Reader.take_eq_ok_iff.1 hm
    obtain ⟨hmosaics, hrun⟩ := Group.counted_eq_ok_iff.1 hg
    obtain ⟨gs, hgs, hwg⟩ := Mosaic.lawful.writeAll_of_run hrun
    rw [LawfulWord.write_eq] at hws hwc
    cases hwr
    cases hws
    cases hwc
    exact ⟨_, (((hrs.trans hss).trans hcs).trans hms).trans hgs,
      write_eq_ok_iff.2 ⟨messageSize, mosaicsCount, gs, hmessage, hmosaics, hwg, rfl⟩⟩
  reads_of_write {b bs} h := by
    obtain ⟨messageSize, mosaicsCount, gs, hms, hmc, hwg, rfl⟩ := write_eq_ok_iff.1 h
    have hmosaics : Reader.Reads (Group.counted Wire.read mosaicsCount.toNat) gs b.mosaics := by
      rw [← hmc]
      exact Mosaic.groupable.reads_counted hwg
    have hmessage : Reader.Reads (Reader.take messageSize.toNat) b.message b.message := by
      rw [← hms]
      exact Reader.reads_take b.message
    simp only [List.append_assoc]
    refine ((Wire.Lawful.blob 25).reads_of_write rfl).bind ?_
    refine ((Wire.Lawful.word UInt16).reads_of_write (LawfulWord.write_eq messageSize)).bind ?_
    refine ((Wire.Lawful.word UInt8).reads_of_write (LawfulWord.write_eq mosaicsCount)).bind ?_
    exact hmessage.bind (hmosaics.map _)
  length_of_write {b bs} h := by
    obtain ⟨messageSize, mosaicsCount, gs, hms, hmc, hwg, rfl⟩ := write_eq_ok_iff.1 h
    simp only [List.length_append, b.recipient.length_eq, length_leBytes,
      Mosaic.groupable.length_of_writeAll hwg]
    rfl
  failure_write {b} h := by
    have hmosaics : failure? (Wire.writeAll b.mosaics) = none := by
      rw [size_eq] at h
      rw [Mosaic.lawful.failure_writeAll (by omega), List.flatMap_eq_nil_iff.2 fun _ _ => rfl]
      rfl
    have hwrite : failure? (Wire.write b) =
        (failure? b.messageSize).or ((failure? b.mosaicsCount).or none) := by
      refine (failure?_bind_of_ok rfl _).trans ?_
      refine failure?_bind fun messageSize _ => ?_
      refine (failure?_bind_of_ok (LawfulWord.write_eq messageSize) _).trans ?_
      refine failure?_bind fun mosaicsCount _ => ?_
      refine (failure?_bind_of_ok (LawfulWord.write_eq mosaicsCount) _).trans ?_
      rw [failure?_map, hmosaics]
    rw [hwrite, derived]
    simp only [findSome?_failure?_cons, failure?_exceptMap, List.findSome?_nil]
  overflow {b} _ e he := by
    simp only [derived, List.mem_cons, List.not_mem_nil, or_false] at he
    rcases he with he | he
    · exact ⟨_, _, Word.overflow_of_derive he⟩
    · exact ⟨_, _, Word.overflow_of_derive he⟩

/-- A message and mosaics whose numbers fit are small. -/
theorem size_lt (h : ∀ d ∈ derived b, ∃ n, d = .ok n) : Wire.size b < 2 ^ 17 := by
  obtain ⟨_, hms⟩ := h (b.messageSize.map Word.toNat) (by simp [derived])
  obtain ⟨_, hmc⟩ := h (b.mosaicsCount.map Word.toNat) (by simp [derived])
  have hmessage : b.message.length ≤ 2 ^ 16 - 1 := Word.le_of_derive hms
  have hcount : b.mosaics.length ≤ 2 ^ 8 - 1 := Word.le_of_derive hmc
  have hmosaics : Wire.sizeAll b.mosaics ≤ b.mosaics.length * 16 :=
    Wire.sizeAll_le fun _ => Nat.le_refl 16
  rw [size_eq]
  omega

theorem groupable : Wire.Groupable TransferTransactionBody :=
  lawful.groupable fun b => by
    rw [size_eq]
    omega

end TransferTransactionBody

theorem TransferTransaction.lawful :
    LawfulUnless fun t : TransferTransaction => t.body.derived :=
  .ofFields (fun t : TransferTransaction => (t.transaction, t.body)) (fun _ => rfl) (fun _ => rfl)
    (Transaction.lawful.pair TransferTransactionBody.lawful)

theorem EmbeddedTransferTransaction.lawful :
    LawfulUnless fun t : EmbeddedTransferTransaction => t.body.derived :=
  .ofFields (fun t : EmbeddedTransferTransaction => (t.transaction, t.body)) (fun _ => rfl)
    (fun _ => rfl) (EmbeddedTransaction.lawful.pair TransferTransactionBody.lawful)

theorem EmbeddedTransferTransaction.groupable : Wire.Groupable EmbeddedTransferTransaction :=
  lawful.groupable fun t => by
    have hsize : Wire.size t = 40 + Wire.size t.body := rfl
    omega

/-! ### Account properties -/

section Properties

variable {ν : Type}

/-- The derived number of some modifications. -/
def AccountPropertiesTransactionBody.derived (b : AccountPropertiesTransactionBody ν) :
    List (Except Error Nat) :=
  [b.modificationsCount.map Word.toNat]

variable [Wire ν]

namespace AccountPropertiesModification

theorem lawful (hν : LawfulUnless fun _ : ν => []) :
    LawfulUnless fun _ : AccountPropertiesModification ν => [] :=
  .ofFields (fun m : AccountPropertiesModification ν => (m.modificationType, m.value))
    (fun _ => rfl) (fun _ => rfl) (.pair (.word UInt8) hν)

theorem groupable (hν : LawfulUnless fun _ : ν => []) :
    Wire.Groupable (AccountPropertiesModification ν) :=
  (lawful hν).groupable fun m => by
    have hsize : Wire.size m = 1 + Wire.size m.value := rfl
    omega

end AccountPropertiesModification

namespace AccountPropertiesTransactionBody

variable {b : AccountPropertiesTransactionBody ν}

theorem size_eq (b : AccountPropertiesTransactionBody ν) :
    Wire.size b = 2 + Wire.sizeAll b.modifications := rfl

theorem write_eq_ok_iff {bs : Bytes} :
    Wire.write b = .ok bs ↔ ∃ (modificationsCount : UInt8) (modifications : Bytes),
      b.modifications.length = modificationsCount.toNat ∧
        Wire.writeAll b.modifications = .ok modifications ∧
        bs = leBytes 1 b.propertyType.toNat ++ leBytes 1 modificationsCount.toNat ++
          modifications := by
  constructor
  · intro h
    obtain ⟨_, hwp, h⟩ := bind_eq_ok_iff.1 h
    obtain ⟨modificationsCount, hmc, h⟩ := bind_eq_ok_iff.1 h
    obtain ⟨_, hwmc, h⟩ := bind_eq_ok_iff.1 h
    obtain ⟨modifications, hm, h⟩ := bind_eq_ok_iff.1 h
    rw [LawfulWord.write_eq] at hwp hwmc
    cases hwp
    cases hwmc
    cases h
    exact ⟨modificationsCount, modifications, Wire.countAs_eq_ok_iff.1 hmc, hm, rfl⟩
  · rintro ⟨modificationsCount, modifications, hmc, hm, rfl⟩
    refine bind_eq_ok_iff.2 ⟨_, LawfulWord.write_eq b.propertyType, ?_⟩
    refine bind_eq_ok_iff.2 ⟨modificationsCount, Wire.countAs_eq_ok_iff.2 hmc, ?_⟩
    refine bind_eq_ok_iff.2 ⟨_, LawfulWord.write_eq modificationsCount, ?_⟩
    exact bind_eq_ok_iff.2 ⟨modifications, hm, rfl⟩

theorem lawful (hν : LawfulUnless fun _ : ν => []) : LawfulUnless (derived (ν := ν)) where
  write_of_read {c c' b} h := by
    obtain ⟨propertyType, c₁, hp, h⟩ := Reader.bind_eq_ok_iff.1 h
    obtain ⟨modificationsCount, c₂, hmc, h⟩ := Reader.bind_eq_ok_iff.1 h
    obtain ⟨modifications, hg, rfl⟩ := Reader.map_eq_ok_iff.1 h
    obtain ⟨ps, hps, hwp⟩ := (Wire.Lawful.word UInt8).write_of_read hp
    obtain ⟨cs, hcs, hwc⟩ := (Wire.Lawful.word UInt8).write_of_read hmc
    obtain ⟨hcount, hrun⟩ := Group.counted_eq_ok_iff.1 hg
    obtain ⟨gs, hgs, hwg⟩ := (AccountPropertiesModification.lawful hν).writeAll_of_run hrun
    rw [LawfulWord.write_eq] at hwp hwc
    cases hwp
    cases hwc
    exact ⟨_, (hps.trans hcs).trans hgs,
      write_eq_ok_iff.2 ⟨modificationsCount, gs, hcount, hwg, rfl⟩⟩
  reads_of_write {b bs} h := by
    obtain ⟨modificationsCount, gs, hcount, hwg, rfl⟩ := write_eq_ok_iff.1 h
    have hmodifications :
        Reader.Reads (Group.counted Wire.read modificationsCount.toNat) gs b.modifications := by
      rw [← hcount]
      exact (AccountPropertiesModification.groupable hν).reads_counted hwg
    simp only [List.append_assoc]
    refine ((Wire.Lawful.word UInt8).reads_of_write (LawfulWord.write_eq b.propertyType)).bind ?_
    refine ((Wire.Lawful.word UInt8).reads_of_write
      (LawfulWord.write_eq modificationsCount)).bind ?_
    exact hmodifications.map _
  length_of_write {b bs} h := by
    obtain ⟨modificationsCount, gs, hcount, hwg, rfl⟩ := write_eq_ok_iff.1 h
    simp only [List.length_append, length_leBytes,
      (AccountPropertiesModification.groupable hν).length_of_writeAll hwg]
    rfl
  failure_write {b} h := by
    have hmodifications : failure? (Wire.writeAll b.modifications) = none := by
      rw [size_eq] at h
      rw [(AccountPropertiesModification.lawful hν).failure_writeAll (by omega),
        List.flatMap_eq_nil_iff.2 fun _ _ => rfl]
      rfl
    have hwrite : failure? (Wire.write b) = (failure? b.modificationsCount).or none := by
      refine (failure?_bind_of_ok (LawfulWord.write_eq b.propertyType) _).trans ?_
      refine failure?_bind fun modificationsCount _ => ?_
      refine (failure?_bind_of_ok (LawfulWord.write_eq modificationsCount) _).trans ?_
      rw [failure?_map, hmodifications]
    rw [hwrite, derived]
    simp only [findSome?_failure?_cons, failure?_exceptMap, List.findSome?_nil]
  overflow {b} _ e he :=
    ⟨_, _, Word.overflow_of_derive (List.mem_singleton.1 he)⟩

end AccountPropertiesTransactionBody

theorem AccountPropertiesTransaction.lawful (hν : LawfulUnless fun _ : ν => []) :
    LawfulUnless fun t : AccountPropertiesTransaction ν => t.body.derived :=
  .ofFields (fun t : AccountPropertiesTransaction ν => (t.transaction, t.body)) (fun _ => rfl)
    (fun _ => rfl) (Transaction.lawful.pair (AccountPropertiesTransactionBody.lawful hν))

theorem EmbeddedAccountPropertiesTransaction.lawful (hν : LawfulUnless fun _ : ν => []) :
    LawfulUnless fun t : EmbeddedAccountPropertiesTransaction ν => t.body.derived :=
  .ofFields (fun t : EmbeddedAccountPropertiesTransaction ν => (t.transaction, t.body))
    (fun _ => rfl) (fun _ => rfl)
    (EmbeddedTransaction.lawful.pair (AccountPropertiesTransactionBody.lawful hν))

end Properties

/-! ### Aggregates -/

namespace AggregateTransactionBody

variable {b : AggregateTransactionBody}

/-- The derived numbers of an aggregate: its own, then those of its transactions. -/
def derived (b : AggregateTransactionBody) : List (Except Error Nat) :=
  b.payloadSize.map Word.toNat :: b.transactions.flatMap fun t => t.body.derived

theorem size_eq (b : AggregateTransactionBody) :
    Wire.size b = 4 + Wire.sizeAll b.transactions := rfl

theorem write_eq_ok_iff {bs : Bytes} :
    Wire.write b = .ok bs ↔ ∃ (payloadSize : UInt32) (transactions : Bytes),
      Wire.sizeAll b.transactions = payloadSize.toNat ∧
        Wire.writeAll b.transactions = .ok transactions ∧
        bs = leBytes 4 payloadSize.toNat ++ transactions := by
  constructor
  · intro h
    obtain ⟨payloadSize, hps, h⟩ := bind_eq_ok_iff.1 h
    obtain ⟨_, hw, h⟩ := bind_eq_ok_iff.1 h
    obtain ⟨transactions, ht, h⟩ := bind_eq_ok_iff.1 h
    rw [LawfulWord.write_eq] at hw
    cases hw
    cases h
    exact ⟨payloadSize, transactions, Wire.sizeAs_eq_ok_iff.1 hps, ht, rfl⟩
  · rintro ⟨payloadSize, transactions, hps, ht, rfl⟩
    refine bind_eq_ok_iff.2 ⟨payloadSize, Wire.sizeAs_eq_ok_iff.2 hps, ?_⟩
    refine bind_eq_ok_iff.2 ⟨_, LawfulWord.write_eq payloadSize, ?_⟩
    exact bind_eq_ok_iff.2 ⟨transactions, ht, rfl⟩

theorem lawful : LawfulUnless derived where
  write_of_read {c c' b} h := by
    obtain ⟨payloadSize, c₁, hp, h⟩ := Reader.bind_eq_ok_iff.1 h
    obtain ⟨transactions, hg, rfl⟩ := Reader.map_eq_ok_iff.1 h
    obtain ⟨ps, hps, hwp⟩ := (Wire.Lawful.word UInt32).write_of_read hp
    obtain ⟨-, hrun, hoffset⟩ := (Group.budgetedWith_eq_ok_iff fun _ =>
      (Wire.forward_read EmbeddedTransferTransaction).advances).1 hg
    obtain ⟨gs, hgs, hwg⟩ := EmbeddedTransferTransaction.lawful.writeAll_of_run hrun
    -- the items end where the budget does, so their size is what was read
    have hsize : Wire.sizeAll transactions = payloadSize.toNat := by
      have hlen := EmbeddedTransferTransaction.groupable.length_of_writeAll hwg
      have := hgs.offset
      omega
    rw [LawfulWord.write_eq] at hwp
    cases hwp
    exact ⟨_, hps.trans hgs, write_eq_ok_iff.2 ⟨payloadSize, gs, hsize, hwg, rfl⟩⟩
  reads_of_write {b bs} h := by
    obtain ⟨payloadSize, gs, hsize, hwg, rfl⟩ := write_eq_ok_iff.1 h
    have htransactions :
        Reader.Reads (Group.budgeted Wire.read payloadSize.toNat) gs b.transactions := by
      rw [← hsize, ← EmbeddedTransferTransaction.groupable.length_of_writeAll hwg]
      exact EmbeddedTransferTransaction.groupable.reads_budgeted hwg
    refine ((Wire.Lawful.word UInt32).reads_of_write (LawfulWord.write_eq payloadSize)).bind ?_
    exact htransactions.map _
  length_of_write {b bs} h := by
    obtain ⟨payloadSize, gs, hsize, hwg, rfl⟩ := write_eq_ok_iff.1 h
    rw [List.length_append, length_leBytes,
      EmbeddedTransferTransaction.groupable.length_of_writeAll hwg, size_eq]
  failure_write {b} h := by
    rw [size_eq] at h
    have hwrite : failure? (Wire.write b) =
        (failure? b.payloadSize).or (failure? (Wire.writeAll b.transactions)) := by
      refine failure?_bind fun payloadSize _ => ?_
      refine (failure?_bind_of_ok (LawfulWord.write_eq payloadSize) _).trans ?_
      rw [failure?_map]
    rw [hwrite, derived, findSome?_failure?_cons, failure?_exceptMap,
      EmbeddedTransferTransaction.lawful.failure_writeAll (by omega)]
  overflow {b} h e he := by
    rw [size_eq] at h
    rcases List.mem_cons.1 he with he | he
    · rw [payloadSize, Wire.sizeAs_eq_derive (by omega)] at he
      exact ⟨_, _, Word.overflow_of_derive he⟩
    · exact EmbeddedTransferTransaction.lawful.overflow_all (by omega) he

theorem size_lt (h : ∀ d ∈ derived b, ∃ n, d = .ok n) : Wire.size b < 2 ^ 33 := by
  obtain ⟨n, hn⟩ := h (b.payloadSize.map Word.toNat) (by simp [derived])
  have hsize : Wire.sizeAll b.transactions ≤ 2 ^ 32 - 1 := by
    cases hp : b.payloadSize with
    | error e =>
      rw [hp] at hn
      cases hn
    | ok size =>
      rw [Wire.sizeAs_eq_ok_iff.1 hp]
      exact LawfulWord.toNat_le size
  rw [size_eq]
  omega

end AggregateTransactionBody

theorem AggregateTransaction.lawful :
    LawfulUnless fun t : AggregateTransaction => t.body.derived :=
  .ofFields (fun t : AggregateTransaction => (t.transaction, t.body)) (fun _ => rfl)
    (fun _ => rfl) (Transaction.lawful.pair AggregateTransactionBody.lawful)

/-! ### All transactions -/

/-- The typed structures round trip, those with account properties for one type of values. -/
structure TransactionsRoundTrip (ν : Type) [Wire ν] : Prop where
  sizePrefixedEntity : RoundTripsExactly fun _ : SizePrefixedEntity => []
  verifiableEntity : RoundTripsExactly fun _ : VerifiableEntity => []
  entityBody : RoundTripsExactly fun _ : EntityBody => []
  transaction : RoundTripsExactly fun _ : Transaction => []
  embeddedTransaction : RoundTripsExactly fun _ : EmbeddedTransaction => []
  mosaic : RoundTripsExactly fun _ : Mosaic => []
  transferTransactionBody : RoundTripsExactly TransferTransactionBody.derived
  transferTransaction : RoundTripsExactly fun t : TransferTransaction => t.body.derived
  embeddedTransferTransaction :
    RoundTripsExactly fun t : EmbeddedTransferTransaction => t.body.derived
  accountPropertiesModification : RoundTrips fun _ : AccountPropertiesModification ν => []
  accountPropertiesTransactionBody : RoundTrips (AccountPropertiesTransactionBody.derived (ν := ν))
  accountPropertiesTransaction :
    RoundTrips fun t : AccountPropertiesTransaction ν => t.body.derived
  embeddedAccountPropertiesTransaction :
    RoundTrips fun t : EmbeddedAccountPropertiesTransaction ν => t.body.derived
  aggregateTransactionBody : RoundTripsExactly AggregateTransactionBody.derived
  aggregateTransaction : RoundTripsExactly fun t : AggregateTransaction => t.body.derived

/-- The typed structures round trip, whatever the values of account properties are, as long as they
are lawful and can always be written. -/
theorem transactions_roundTrip {ν : Type} [Wire ν] (hν : Wire.Lawful ν)
    (hwrite : ∀ v : ν, ∃ bs, Wire.write v = .ok bs) : TransactionsRoundTrip ν := by
  have hvalues : LawfulUnless fun _ : ν => [] := .of_writes hν hwrite
  constructor
  case sizePrefixedEntity =>
    exact SizePrefixedEntity.lawful.roundTripsExactly_of_size (by decide : 4 < 2 ^ 63) fun _ => rfl
  case verifiableEntity =>
    exact VerifiableEntity.lawful.roundTripsExactly_of_size (by decide : 64 < 2 ^ 63) fun _ => rfl
  case entityBody =>
    exact EntityBody.lawful.roundTripsExactly_of_size (by decide : 36 < 2 ^ 63) fun _ => rfl
  case transaction =>
    exact Transaction.lawful.roundTripsExactly_of_size (by decide : 120 < 2 ^ 63) fun _ => rfl
  case embeddedTransaction =>
    exact EmbeddedTransaction.lawful.roundTripsExactly_of_size (by decide : 40 < 2 ^ 63) fun _ => rfl
  case mosaic =>
    exact Mosaic.lawful.roundTripsExactly_of_size (by decide : 16 < 2 ^ 63) fun _ => rfl
  case transferTransactionBody =>
    refine TransferTransactionBody.lawful.roundTripsExactly fun b h => ?_
    have := TransferTransactionBody.size_lt h
    omega
  case transferTransaction =>
    refine TransferTransaction.lawful.roundTripsExactly fun t h => ?_
    have := TransferTransactionBody.size_lt h
    have hsize : Wire.size t = 120 + Wire.size t.body := rfl
    omega
  case embeddedTransferTransaction =>
    refine EmbeddedTransferTransaction.lawful.roundTripsExactly fun t h => ?_
    have := TransferTransactionBody.size_lt h
    have hsize : Wire.size t = 40 + Wire.size t.body := rfl
    omega
  case accountPropertiesModification =>
    exact (AccountPropertiesModification.lawful hvalues).roundTrips
  case accountPropertiesTransactionBody =>
    exact (AccountPropertiesTransactionBody.lawful hvalues).roundTrips
  case accountPropertiesTransaction =>
    exact (AccountPropertiesTransaction.lawful hvalues).roundTrips
  case embeddedAccountPropertiesTransaction =>
    exact (EmbeddedAccountPropertiesTransaction.lawful hvalues).roundTrips
  case aggregateTransactionBody =>
    refine AggregateTransactionBody.lawful.roundTripsExactly fun b h => ?_
    have := AggregateTransactionBody.size_lt h
    omega
  case aggregateTransaction =>
    refine AggregateTransaction.lawful.roundTripsExactly fun t h => ?_
    have := AggregateTransactionBody.size_lt h
    have hsize : Wire.size t = 120 + Wire.size t.body := rfl
    omega

/-- More modifications than a byte can count. -/
def crowdedProperties : AccountPropertiesTransactionBody MosaicId :=
  ⟨1, List.replicate 256 ⟨0, .zero 8⟩⟩

theorem size_crowdedProperties : Wire.size crowdedProperties < 2 ^ 63 := by
  have hall : Wire.sizeAll crowdedProperties.modifications ≤
      crowdedProperties.modifications.length * 9 := Wire.sizeAll_le fun _ => Nat.le_refl 9
  have hcount : crowdedProperties.modifications.length = 256 := List.length_replicate
  rw [AccountPropertiesTransactionBody.size_eq]
  omega

/-- The count of the modifications is what is refused. -/
theorem encode_crowdedProperties :
    Wire.Lawful MosaicId ∧ (∀ v : MosaicId, ∃ bs, Wire.write v = .ok bs) ∧
      Wire.encode crowdedProperties = .error (.overflow 256 1) := by
  have hlawful : Wire.Lawful MosaicId := .blob 8
  have hwrite (v : MosaicId) : ∃ bs, Wire.write v = .ok bs := ⟨v.data, rfl⟩
  refine ⟨hlawful, hwrite, ?_⟩
  have hbody := (transactions_roundTrip hlawful hwrite).accountPropertiesTransactionBody
  refine (hbody.encode_eq_error_iff size_crowdedProperties).2
    ⟨[], [], ?_, fun _ hd => by cases hd⟩
  decide +kernel

end WireSchema
