import WireSchema.Transaction.Schema
import WireSchema.Proofs.Resolve.Visit
import WireSchema.Proofs.Transaction.Agreement
import WireSchema.Proofs.Transaction.Layouts

/-!
# The codec of transactions

The schema document of the transactions resolves to `transactionLayouts`. Each of its structures is
mirrored by a type, so that the interpreted codec of the schema and the codec of the types agree,
on all inputs and values, failures included.

The types of nested structures come first, as the groups of others have them as items.
-/

namespace WireSchema

/-! ### The resolved document -/

/-- The schema that the schema document of the transactions resolves to. -/
def transactionLayouts : Schema where
  structures := [
    ⟨"TransferTransaction", TransferTransaction.layout, [], none, 148⟩,
    ⟨"AggregateTransaction", AggregateTransaction.layout, [], none, 124⟩,
    ⟨"EmbeddedTransferTransaction", EmbeddedTransferTransaction.layout, [], none, 68⟩,
    ⟨"TransferTransactionBody", TransferTransactionBody.layout, [], none, 28⟩,
    ⟨"Mosaic", Mosaic.layout, [], some 16, 16⟩,
    ⟨"EmbeddedTransaction", EmbeddedTransaction.layout, [], some 40, 40⟩,
    ⟨"AccountPropertiesMosaicTransaction",
      AccountPropertiesTransaction.layout "MosaicModification", [], none, 122⟩,
    ⟨"MosaicModification", AccountPropertiesModification.layout MosaicId, [], some 9, 9⟩,
    ⟨"AccountPropertiesEntityTypeTransaction",
      AccountPropertiesTransaction.layout "EntityTypeModification", [], none, 122⟩,
    ⟨"EntityTypeModification", AccountPropertiesModification.layout EntityType, [], some 3, 3⟩,
    ⟨"AccountPropertiesAddressTransaction",
      AccountPropertiesTransaction.layout "AddressModification", [], none, 122⟩,
    ⟨"AddressModification", AccountPropertiesModification.layout Address, [], some 26, 26⟩,
    ⟨"Transaction", Transaction.layout, [], some 120, 120⟩,
    ⟨"EntityBody", EntityBody.layout, [], some 36, 36⟩,
    ⟨"VerifiableEntity", VerifiableEntity.layout, [], some 64, 64⟩,
    ⟨"SizePrefixedEntity", SizePrefixedEntity.layout, [], some 4, 4⟩]
  enumerations := [⟨"EntityType", .two, [
    ⟨"transfer", 16724⟩,
    ⟨"aggregate_complete", 16705⟩,
    ⟨"account_properties_address", 16720⟩,
    ⟨"account_properties_mosaic", 16976⟩,
    ⟨"account_properties_entity_type", 17232⟩]⟩]

set_option maxRecDepth 100000 in
/-- The schema document as the list of its characters. -/
def transactionCharacters : { l : List Char // String.ofList l = transactionDocument } := ⟨_, rfl⟩

set_option maxRecDepth 100000 in
/-- The schema document resolves. It is parsed as a list of characters, which the kernel can
evaluate. -/
theorem transactionSchema_eq : transactionSchema = .ok transactionLayouts := by
  unfold transactionSchema Schema.ofYaml Document.ofYaml? Yaml.parse?
  rw [← transactionCharacters.2, String.toList_ofList]
  decide +kernel

theorem layered_transactionLayouts : Layered transactionLayouts.structures := by
  have h := transactionSchema_eq
  unfold transactionSchema Schema.ofYaml at h
  cases hd : Document.ofYaml? transactionDocument with
  | none =>
    rw [hd] at h
    cases h
  | some d =>
    rw [hd] at h
    exact layered_of_resolve h

/-! ### The types that mirror the structures -/

/-- A type mirrors a structure of the transactions. -/
abbrev TransactionTwin (name : String) {α : Type} [Wire α] (record : α → Record) : Prop :=
  Twin (transactionLayouts.read {}) transactionLayouts.encoder name record

namespace TransactionTwin

/-- A type of fixed size mirrors the structure of its fields. -/
theorem ofSegment {name : String} {α : Type} [Wire α] {record : α → Record} {fs : List Field}
    {n : Nat} (ha : Segment fs record)
    (hs : transactionLayouts.structure? name = some ⟨name, fs, [], some n, n⟩)
    (hn : n < 2 ^ 64) (hsize : ∀ a : α, Wire.size a = n) : TransactionTwin name record := by
  refine Segment.twin ha layered_transactionLayouts hs ?_
  rintro m ⟨⟩
  exact ⟨hn, hsize⟩

/-- A type that has groups mirrors a structure if its fields are mirrored where they stand. -/
theorem ofTail {name : String} {α : Type} [Wire α] {record : α → Record} {fs : List Field}
    {n : Nat} (hs : transactionLayouts.structure? name = some ⟨name, fs, [], none, n⟩)
    (ht : ∀ {read nested below},
      transactionLayouts.View name ⟨name, fs, [], none, n⟩ read nested below →
        Tail read nested ⟨name, fs, [], none, n⟩ fs record) : TransactionTwin name record := by
  obtain ⟨read, nested, below, hv⟩ := Schema.exists_view layered_transactionLayouts hs
  exact hv.twin (ht hv) (fun _ h => nomatch h)

theorem sizePrefixedEntity : TransactionTwin "SizePrefixedEntity" SizePrefixedEntity.record :=
  ofSegment SizePrefixedEntity.segment rfl (by decide) fun _ => rfl

theorem verifiableEntity : TransactionTwin "VerifiableEntity" VerifiableEntity.record :=
  ofSegment VerifiableEntity.segment rfl (by decide) fun _ => rfl

theorem entityBody : TransactionTwin "EntityBody" EntityBody.record :=
  ofSegment EntityBody.segment rfl (by decide) fun _ => rfl

theorem transaction : TransactionTwin "Transaction" Transaction.record :=
  ofSegment Transaction.segment rfl (by decide) fun _ => rfl

theorem embeddedTransaction : TransactionTwin "EmbeddedTransaction" EmbeddedTransaction.record :=
  ofSegment EmbeddedTransaction.segment rfl (by decide) fun _ => rfl

theorem mosaic : TransactionTwin "Mosaic" Mosaic.record :=
  ofSegment Mosaic.segment rfl (by decide) fun _ => rfl

theorem addressModification : TransactionTwin "AddressModification"
    (AccountPropertiesModification.record (ν := Address)) :=
  ofSegment AccountPropertiesModification.segment rfl (by decide) fun _ => rfl

theorem mosaicModification : TransactionTwin "MosaicModification"
    (AccountPropertiesModification.record (ν := MosaicId)) :=
  ofSegment AccountPropertiesModification.segment rfl (by decide) fun _ => rfl

theorem entityTypeModification : TransactionTwin "EntityTypeModification"
    (AccountPropertiesModification.record (ν := EntityType)) :=
  ofSegment AccountPropertiesModification.segment rfl (by decide) fun _ => rfl

theorem transferTransactionBody :
    TransactionTwin "TransferTransactionBody" TransferTransactionBody.record :=
  ofTail rfl fun hv => TransferTransactionBody.tail hv.sound (fun _ h => h)
    (hv.twin_below (f := ⟨"mosaics", .repeated (.struct "Mosaic") (.counted "mosaics_count")⟩)
      (by decide) (by decide) mosaic)

theorem transferTransaction : TransactionTwin "TransferTransaction" TransferTransaction.record :=
  ofTail rfl fun hv => TransferTransaction.tail hv.sound (fun _ h => h)
    (hv.twin_below (f := ⟨"mosaics", .repeated (.struct "Mosaic") (.counted "mosaics_count")⟩)
      (by decide) (by decide) mosaic)

theorem embeddedTransferTransaction :
    TransactionTwin "EmbeddedTransferTransaction" EmbeddedTransferTransaction.record :=
  ofTail rfl fun hv => EmbeddedTransferTransaction.tail hv.sound (fun _ h => h)
    (hv.twin_below (f := ⟨"mosaics", .repeated (.struct "Mosaic") (.counted "mosaics_count")⟩)
      (by decide) (by decide) mosaic)

/-- An account property transaction has the modifications that its values are put in. -/
theorem accountProperties {ν : Type} [Wire ν] [Plain ν] [LawfulPlain ν] {name type : String}
    {n : Nat}
    (hs : transactionLayouts.structure? name =
      some ⟨name, AccountPropertiesTransaction.layout type, [], none, n⟩)
    (hm : TransactionTwin type (AccountPropertiesModification.record (ν := ν))) :
    TransactionTwin name (AccountPropertiesTransaction.record (ν := ν)) :=
  ofTail hs fun hv => AccountPropertiesTransaction.tail hv.sound (fun _ h => h)
    (hv.twin_below
      (f := ⟨"modifications", .repeated (.struct type) (.counted "modifications_count")⟩)
      (by simp [AccountPropertiesTransaction.layout, AccountPropertiesTransactionBody.layout])
      (by simp [FieldKind.references]) hm)

theorem aggregateTransaction :
    TransactionTwin "AggregateTransaction" AggregateTransaction.record :=
  ofTail rfl fun hv => by
    let f : Field := ⟨"transactions",
      .repeated (.struct "EmbeddedTransferTransaction") (.budgeted "payload_size")⟩
    have hf : f ∈ AggregateTransaction.layout := by decide
    exact AggregateTransaction.tail hv.sound (fun _ h => h)
      (hv.twin_below hf (by decide) embeddedTransferTransaction) (hv.forward_below hf (by decide))

end TransactionTwin

/-! ### Sizes and counts -/

section Derived

variable {name : String} {s : Structure} {α : Type} {record : α → Record}

/-- A structure that has the fields of the body of a transfer derives the length of the message. -/
theorem derives_messageSize (hs : transactionLayouts.structure? name = some s)
    (hl : ∀ f ∈ TransferTransactionBody.layout, f ∈ s.fields)
    (hnames : ∀ a, (record a).names = (s.fields.filter (·.isContent)).map (·.name))
    {body : α → TransferTransactionBody} (hbody : ∀ a, (body a).record ⊆ record a) :
    Derives transactionLayouts name "message_size" record fun a => (body a).messageSize := by
  obtain ⟨_, nested, below, hv⟩ := Schema.exists_view layered_transactionLayouts hs
  refine hv.derives (hl ⟨"message_size", .derived .two "message" .byteLength⟩ (by decide)) ?_
  intro a
  rw [TransferTransactionBody.derive_messageSize hv.sound hl (hv.has_part (hnames a) (hbody a))]
  rfl

/-- A structure that has the fields of the body of a transfer derives the number of mosaics. -/
theorem derives_mosaicsCount (hs : transactionLayouts.structure? name = some s)
    (hl : ∀ f ∈ TransferTransactionBody.layout, f ∈ s.fields)
    (hnames : ∀ a, (record a).names = (s.fields.filter (·.isContent)).map (·.name))
    {body : α → TransferTransactionBody} (hbody : ∀ a, (body a).record ⊆ record a) :
    Derives transactionLayouts name "mosaics_count" record fun a => (body a).mosaicsCount := by
  obtain ⟨_, nested, below, hv⟩ := Schema.exists_view layered_transactionLayouts hs
  refine hv.derives (hl ⟨"mosaics_count", .derived .one "mosaics" .itemCount⟩ (by decide)) ?_
  intro a
  rw [TransferTransactionBody.derive_mosaicsCount hv.sound hl (hv.has_part (hnames a) (hbody a))]
  rfl

/-- An account property transaction derives the number of modifications. -/
theorem derives_modificationsCount {ν : Type} [Plain ν] {type : String} {n : Nat}
    (hs : transactionLayouts.structure? name =
      some ⟨name, AccountPropertiesTransaction.layout type, [], none, n⟩) :
    Derives transactionLayouts name "modifications_count"
      (AccountPropertiesTransaction.record (ν := ν)) fun t => t.body.modificationsCount := by
  obtain ⟨_, nested, below, hv⟩ := Schema.exists_view layered_transactionLayouts hs
  have hl : ∀ f ∈ AccountPropertiesTransactionBody.layout type,
      f ∈ AccountPropertiesTransaction.layout type := fun f => List.mem_append_right _
  refine hv.derives (hl ⟨"modifications_count", .derived .one "modifications" .itemCount⟩
    (by simp [AccountPropertiesTransactionBody.layout])) ?_
  intro t
  rw [AccountPropertiesTransactionBody.derive_modificationsCount hv.sound hl
    (hv.has_part (r := t.record) rfl (List.subset_append_right _ _))]
  rfl

/-- An aggregate derives the number of bytes of its transactions. -/
theorem derives_payloadSize :
    Derives transactionLayouts "AggregateTransaction" "payload_size" AggregateTransaction.record
      fun t => t.body.payloadSize := by
  have hs : transactionLayouts.structure? "AggregateTransaction" =
      some ⟨"AggregateTransaction", AggregateTransaction.layout, [], none, 124⟩ := rfl
  obtain ⟨_, nested, below, hv⟩ := Schema.exists_view layered_transactionLayouts hs
  let f : Field := ⟨"transactions",
    .repeated (.struct "EmbeddedTransferTransaction") (.budgeted "payload_size")⟩
  have ht := hv.twin_below (f := f) (by decide) (by decide)
    TransactionTwin.embeddedTransferTransaction
  have hl : ∀ f ∈ AggregateTransactionBody.layout, f ∈ AggregateTransaction.layout := by decide
  refine hv.derives (hl ⟨"payload_size", .derived .four "transactions" .groupSize⟩ (by decide)) ?_
  intro t
  rw [AggregateTransactionBody.payloadSize_eq, AggregateTransactionBody.derive_payloadSize hv.sound
    hl ht (hv.has_part (r := t.record) rfl (List.subset_append_right _ _))]

end Derived

/-! ### Agreement -/

/-- The interpreted codec of a schema is that of the types of transactions: each structure of the
schema has the codec of a type, and each of its sizes and counts is the one that is asked for of the
type. -/
structure TransactionsAgree (schema : Schema) : Prop where
  /-- There are no other structures than those below. -/
  names : schema.structures.map (·.name) = [
    "TransferTransaction", "AggregateTransaction", "EmbeddedTransferTransaction",
    "TransferTransactionBody", "Mosaic", "EmbeddedTransaction",
    "AccountPropertiesMosaicTransaction", "MosaicModification",
    "AccountPropertiesEntityTypeTransaction", "EntityTypeModification",
    "AccountPropertiesAddressTransaction", "AddressModification",
    "Transaction", "EntityBody", "VerifiableEntity", "SizePrefixedEntity"]
  sizePrefixedEntity : Agrees schema "SizePrefixedEntity" SizePrefixedEntity.record
  verifiableEntity : Agrees schema "VerifiableEntity" VerifiableEntity.record
  entityBody : Agrees schema "EntityBody" EntityBody.record
  transaction : Agrees schema "Transaction" Transaction.record
  embeddedTransaction : Agrees schema "EmbeddedTransaction" EmbeddedTransaction.record
  mosaic : Agrees schema "Mosaic" Mosaic.record
  transferTransactionBody :
    Agrees schema "TransferTransactionBody" TransferTransactionBody.record
  transferTransaction : Agrees schema "TransferTransaction" TransferTransaction.record
  embeddedTransferTransaction :
    Agrees schema "EmbeddedTransferTransaction" EmbeddedTransferTransaction.record
  addressModification :
    Agrees schema "AddressModification" (AccountPropertiesModification.record (ν := Address))
  mosaicModification :
    Agrees schema "MosaicModification" (AccountPropertiesModification.record (ν := MosaicId))
  entityTypeModification :
    Agrees schema "EntityTypeModification" (AccountPropertiesModification.record (ν := EntityType))
  accountPropertiesAddressTransaction : Agrees schema "AccountPropertiesAddressTransaction"
    (AccountPropertiesTransaction.record (ν := Address))
  accountPropertiesMosaicTransaction : Agrees schema "AccountPropertiesMosaicTransaction"
    (AccountPropertiesTransaction.record (ν := MosaicId))
  accountPropertiesEntityTypeTransaction : Agrees schema "AccountPropertiesEntityTypeTransaction"
    (AccountPropertiesTransaction.record (ν := EntityType))
  aggregateTransaction : Agrees schema "AggregateTransaction" AggregateTransaction.record
  transferTransactionBody_messageSize : Derives schema "TransferTransactionBody" "message_size"
    TransferTransactionBody.record fun b => b.messageSize
  transferTransactionBody_mosaicsCount : Derives schema "TransferTransactionBody" "mosaics_count"
    TransferTransactionBody.record fun b => b.mosaicsCount
  transferTransaction_messageSize : Derives schema "TransferTransaction" "message_size"
    TransferTransaction.record fun t => t.body.messageSize
  transferTransaction_mosaicsCount : Derives schema "TransferTransaction" "mosaics_count"
    TransferTransaction.record fun t => t.body.mosaicsCount
  embeddedTransferTransaction_messageSize :
    Derives schema "EmbeddedTransferTransaction" "message_size"
      EmbeddedTransferTransaction.record fun t => t.body.messageSize
  embeddedTransferTransaction_mosaicsCount :
    Derives schema "EmbeddedTransferTransaction" "mosaics_count"
      EmbeddedTransferTransaction.record fun t => t.body.mosaicsCount
  accountPropertiesAddressTransaction_modificationsCount :
    Derives schema "AccountPropertiesAddressTransaction" "modifications_count"
      (AccountPropertiesTransaction.record (ν := Address)) fun t => t.body.modificationsCount
  accountPropertiesMosaicTransaction_modificationsCount :
    Derives schema "AccountPropertiesMosaicTransaction" "modifications_count"
      (AccountPropertiesTransaction.record (ν := MosaicId)) fun t => t.body.modificationsCount
  accountPropertiesEntityTypeTransaction_modificationsCount :
    Derives schema "AccountPropertiesEntityTypeTransaction" "modifications_count"
      (AccountPropertiesTransaction.record (ν := EntityType)) fun t => t.body.modificationsCount
  aggregateTransaction_payloadSize : Derives schema "AggregateTransaction" "payload_size"
    AggregateTransaction.record fun t => t.body.payloadSize

/-- The schema document of the transactions resolves, to a schema whose interpreted codec is the
codec of the types. -/
theorem transactions_agree :
    ∃ schema, transactionSchema = .ok schema ∧ TransactionsAgree schema := by
  have hself {r : Record} : r ⊆ r := List.Subset.refl r
  have hright {r part : Record} : part ⊆ r ++ part := List.subset_append_right r part
  refine ⟨transactionLayouts, transactionSchema_eq, ?_⟩
  exact {
    names := rfl
    sizePrefixedEntity := TransactionTwin.sizePrefixedEntity.agrees
    verifiableEntity := TransactionTwin.verifiableEntity.agrees
    entityBody := TransactionTwin.entityBody.agrees
    transaction := TransactionTwin.transaction.agrees
    embeddedTransaction := TransactionTwin.embeddedTransaction.agrees
    mosaic := TransactionTwin.mosaic.agrees
    transferTransactionBody := TransactionTwin.transferTransactionBody.agrees
    transferTransaction := TransactionTwin.transferTransaction.agrees
    embeddedTransferTransaction := TransactionTwin.embeddedTransferTransaction.agrees
    addressModification := TransactionTwin.addressModification.agrees
    mosaicModification := TransactionTwin.mosaicModification.agrees
    entityTypeModification := TransactionTwin.entityTypeModification.agrees
    accountPropertiesAddressTransaction :=
      (TransactionTwin.accountProperties rfl TransactionTwin.addressModification).agrees
    accountPropertiesMosaicTransaction :=
      (TransactionTwin.accountProperties rfl TransactionTwin.mosaicModification).agrees
    accountPropertiesEntityTypeTransaction :=
      (TransactionTwin.accountProperties rfl TransactionTwin.entityTypeModification).agrees
    aggregateTransaction := TransactionTwin.aggregateTransaction.agrees
    transferTransactionBody_messageSize :=
      derives_messageSize rfl (by decide) (fun _ => rfl) fun _ => hself
    transferTransactionBody_mosaicsCount :=
      derives_mosaicsCount rfl (by decide) (fun _ => rfl) fun _ => hself
    transferTransaction_messageSize :=
      derives_messageSize rfl (by decide) (fun _ => rfl) fun _ => hright
    transferTransaction_mosaicsCount :=
      derives_mosaicsCount rfl (by decide) (fun _ => rfl) fun _ => hright
    embeddedTransferTransaction_messageSize :=
      derives_messageSize rfl (by decide) (fun _ => rfl) fun _ => hright
    embeddedTransferTransaction_mosaicsCount :=
      derives_mosaicsCount rfl (by decide) (fun _ => rfl) fun _ => hright
    accountPropertiesAddressTransaction_modificationsCount := derives_modificationsCount rfl
    accountPropertiesMosaicTransaction_modificationsCount := derives_modificationsCount rfl
    accountPropertiesEntityTypeTransaction_modificationsCount := derives_modificationsCount rfl
    aggregateTransaction_payloadSize := derives_payloadSize }

end WireSchema
