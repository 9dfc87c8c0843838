import WireSchema.Transaction.AccountProperties
import WireSchema.Transaction.Aggregate
import WireSchema.Proofs.Transaction.Mirror

/-!
# The layouts of transactions

For each part of a transaction, the record that a typed value amounts to and the list of fields that
it mirrors. A record lists the content of a value in wire order; sizes and counts are no part of it,
and the kind of an entity goes under the name `type`.

The headers are mirrored wherever they stand. The bodies come last, and use sizes and counts that
stand before them, so that they are mirrored at the end of a structure that has their fields.
-/

namespace WireSchema

/-! ### Headers -/

namespace SizePrefixedEntity

/-- The fields of the size of an entity. -/
def layout : List Field := [⟨"size", .scalar .four⟩]

def record (e : SizePrefixedEntity) : Record := [("size", Plain.content e.size)]

theorem segment : Segment layout record :=
  .ofFields (fun e : SizePrefixedEntity => e.size) (fun _ => rfl) (.single "size")

end SizePrefixedEntity

namespace VerifiableEntity

/-- The fields of a signed entity. -/
def layout : List Field := [⟨"signature", .fixedBlob 64⟩]

def record (e : VerifiableEntity) : Record := [("signature", Plain.content e.signature)]

theorem segment : Segment layout record :=
  .ofFields (fun e : VerifiableEntity => e.signature) (fun _ => rfl) (.single "signature")

end VerifiableEntity

namespace EntityBody

/-- The fields of the body of an entity. -/
def layout : List Field :=
  [⟨"signer", .fixedBlob 32⟩, ⟨"version", .scalar .two⟩, ⟨"type", .scalar .two⟩]

def record (e : EntityBody) : Record := [
  ("signer", Plain.content e.signer),
  ("version", Plain.content e.version),
  ("type", Plain.content e.entityType)]

theorem segment : Segment layout record :=
  .ofFields (fun e : EntityBody => (e.signer, e.version, e.entityType)) (fun _ => rfl)
    (.append (.single "signer") (.append (.single "version") (.single "type")))

end EntityBody

namespace Transaction

/-- The fields of the header of a transaction. -/
def layout : List Field :=
  SizePrefixedEntity.layout ++ VerifiableEntity.layout ++ EntityBody.layout ++
    [⟨"fee", .scalar .eight⟩, ⟨"deadline", .scalar .eight⟩]

def record (t : Transaction) : Record :=
  t.entity.record ++ t.verifiable.record ++ t.body.record ++
    [("fee", Plain.content t.fee), ("deadline", Plain.content t.deadline)]

theorem segment : Segment layout record :=
  .ofFields (fun t : Transaction => (t.entity, t.verifiable, t.body, t.fee, t.deadline))
    (fun _ => rfl)
    (.append SizePrefixedEntity.segment (.append VerifiableEntity.segment
      (.append EntityBody.segment (.append (.single "fee") (.single "deadline")))))

end Transaction

namespace EmbeddedTransaction

/-- The fields of the header of an embedded transaction. -/
def layout : List Field := SizePrefixedEntity.layout ++ EntityBody.layout

def record (t : EmbeddedTransaction) : Record := t.entity.record ++ t.body.record

theorem segment : Segment layout record :=
  .ofFields (fun t : EmbeddedTransaction => (t.entity, t.body)) (fun _ => rfl)
    (.append SizePrefixedEntity.segment EntityBody.segment)

end EmbeddedTransaction

/-! ### Transfers -/

namespace Mosaic

/-- The fields of a mosaic. -/
def layout : List Field := [⟨"mosaic_id", .fixedBlob 8⟩, ⟨"amount", .fixedBlob 8⟩]

def record (m : Mosaic) : Record :=
  [("mosaic_id", Plain.content m.mosaicId), ("amount", Plain.content m.amount)]

theorem segment : Segment layout record :=
  .ofFields (fun m : Mosaic => (m.mosaicId, m.amount)) (fun _ => rfl)
    (.append (.single "mosaic_id") (.single "amount"))

end Mosaic

section Bodies

variable {read : String → Reader Record} {nested : String → Encoder} {below : List Structure}
  {owner : Structure}

namespace TransferTransactionBody

/-- The fields of the body of a transfer. -/
def layout : List Field := [
  ⟨"recipient", .fixedBlob 25⟩,
  ⟨"message_size", .derived .two "message" .byteLength⟩,
  ⟨"mosaics_count", .derived .one "mosaics" .itemCount⟩,
  ⟨"message", .variableBlob "message_size"⟩,
  ⟨"mosaics", .repeated (.struct "Mosaic") (.counted "mosaics_count")⟩]

def record (b : TransferTransactionBody) : Record := [
  ("recipient", Plain.content b.recipient),
  ("message", .bytes b.message),
  ("mosaics", Value.ofItems Mosaic.record b.mosaics)]

theorem derive_messageSize (hs : owner.Sound below) (hl : ∀ f ∈ layout, f ∈ owner.fields)
    {r : Record} {b : TransferTransactionBody} (h : r.Has b.record) :
    Encode.derive nested owner r "message" .byteLength = .ok b.message.length :=
  derive_length hs (hl ⟨"message", .variableBlob "message_size"⟩ (by simp [layout]))
    (h ("message", .bytes b.message) (by simp [record]))

theorem derive_mosaicsCount (hs : owner.Sound below) (hl : ∀ f ∈ layout, f ∈ owner.fields)
    {r : Record} {b : TransferTransactionBody} (h : r.Has b.record) :
    Encode.derive nested owner r "mosaics" .itemCount = .ok b.mosaics.length :=
  derive_count hs
    (hl ⟨"mosaics", .repeated (.struct "Mosaic") (.counted "mosaics_count")⟩ (by simp [layout]))
    (h ("mosaics", Value.ofItems Mosaic.record b.mosaics) (by simp [record]))

theorem tail (hs : owner.Sound below) (hl : ∀ f ∈ layout, f ∈ owner.fields)
    (hm : Twin read nested "Mosaic" Mosaic.record) : Tail read nested owner layout record where
  names _ := rfl
  reads frame := by
    -- the size and the count go into the frame, where the message and the mosaics find them
    have hsized : Decode.fields read {} owner (layout.drop 1) frame =
        (Wire.read : Reader UInt16) >>= fun messageSize =>
        (Wire.read : Reader UInt8) >>= fun mosaicsCount =>
        Reader.take messageSize.toNat >>= fun message =>
        Group.counted Wire.read mosaicsCount.toNat >>= fun mosaics =>
          pure [("message", .bytes message), ("mosaics", Value.ofItems Mosaic.record mosaics)] := by
      refine (fields_word (υ := UInt16) {} _).trans (bind_congr fun messageSize => ?_)
      refine (fields_word (υ := UInt8) {} _).trans (bind_congr fun mosaicsCount => ?_)
      rw [Decode.fields_content rfl, content_variableBlob rfl, LawfulWord.toNat_ofNat_toNat]
      rw [Decode.fields_content rfl, hm.read_counted rfl, LawfulWord.toNat_ofNat_toNat]
      simp only [bind_assoc, pure_bind, Decode.fields_nil]
      rfl
    refine ((Segment.single (ν := Address) "recipient").reads read {} owner _ frame).trans ?_
    show (_ >>= fun _ => Decode.fields read {} owner (layout.drop 1) frame >>= _) = (_ >>= _) >>= _
    rw [hsized]
    simp only [bind_assoc, pure_bind]
    rfl
  writes {r b} h := by
    have hrecipient : Encode.fieldBytes nested owner r ⟨"recipient", .fixedBlob 25⟩ =
        Wire.write b.recipient :=
      LawfulPlain.write_eq nested owner
        (h ("recipient", Plain.content b.recipient) (by simp [record]))
    have hsize : Encode.fieldBytes nested owner r
        ⟨"message_size", .derived .two "message" .byteLength⟩ =
          b.messageSize >>= fun n => Wire.write n := by
      refine (fieldBytes_word (υ := UInt16)).trans ?_
      rw [derive_messageSize hs hl h]
      rfl
    have hcount : Encode.fieldBytes nested owner r
        ⟨"mosaics_count", .derived .one "mosaics" .itemCount⟩ =
          b.mosaicsCount >>= fun n => Wire.write n := by
      refine (fieldBytes_word (υ := UInt8)).trans ?_
      rw [derive_mosaicsCount hs hl h]
      rfl
    have hmessage : Encode.fieldBytes nested owner r ⟨"message", .variableBlob "message_size"⟩ =
        pure b.message := by
      refine (Encode.fieldBytes_variableBlob rfl).2 (Encode.bytesContent_eq_ok_iff.2 (.inr ?_))
      exact h ("message", .bytes b.message) (by simp [record])
    have hmosaics : Encode.fieldBytes nested owner r
        ⟨"mosaics", .repeated (.struct "Mosaic") (.counted "mosaics_count")⟩ =
          Wire.writeAll b.mosaics :=
      hm.write_items (by simp)
        (h ("mosaics", Value.ofItems Mosaic.record b.mosaics) (by simp [record]))
    have hwrite : Wire.write b =
        Wire.write b.recipient >>= fun recipient =>
        (b.messageSize >>= fun n => Wire.write n) >>= fun messageSize =>
        (b.mosaicsCount >>= fun n => Wire.write n) >>= fun mosaicsCount =>
        Wire.writeAll b.mosaics >>= fun mosaics =>
          pure (recipient ++ messageSize ++ mosaicsCount ++ b.message ++ mosaics) := by
      simp only [bind_assoc]
      rfl
    rw [hwrite]
    simp only [layout, Group.write_cons, Group.write_nil, hrecipient, hsize, hcount, hmessage,
      hmosaics, bind_assoc, pure_bind, List.append_assoc, List.append_nil]
  sizes {r b} total h := by
    have hrecipient : Encode.fieldSize nested owner ⟨"recipient", .fixedBlob 25⟩
        (r.get? "recipient") = .ok 25 := rfl
    have hmessageSize : Encode.fieldSize nested owner
        ⟨"message_size", .derived .two "message" .byteLength⟩ (r.get? "message_size") = .ok 2 := rfl
    have hmosaicsCount : Encode.fieldSize nested owner
        ⟨"mosaics_count", .derived .one "mosaics" .itemCount⟩ (r.get? "mosaics_count") = .ok 1 :=
      rfl
    have hmosaics : Encode.fieldSize nested owner
        ⟨"mosaics", .repeated (.struct "Mosaic") (.counted "mosaics_count")⟩ (r.get? "mosaics") =
          addSize 0 (Wire.sizeAll b.mosaics) := by
      rw [h ("mosaics", Value.ofItems Mosaic.record b.mosaics) (by simp [record])]
      exact hm.size_items b.mosaics
    have hmessage : Encode.fieldSize nested owner ⟨"message", .variableBlob "message_size"⟩
        (r.get? "message") = .ok b.message.length := by
      rw [h ("message", .bytes b.message) (by simp [record])]
      rfl
    have hsize : Wire.size b = 25 + (2 + (1 + (b.message.length + Wire.sizeAll b.mosaics))) := by
      show 25 + 2 + 1 + b.message.length + Wire.sizeAll b.mosaics = _
      omega
    rw [hsize]
    simp only [← addSize_add]
    refine (fieldSizes_cons (.inl hrecipient) _ _).trans (bind_congr fun total => ?_)
    refine (fieldSizes_cons (.inl hmessageSize) _ _).trans (bind_congr fun total => ?_)
    refine (fieldSizes_cons (.inl hmosaicsCount) _ _).trans (bind_congr fun total => ?_)
    refine (fieldSizes_cons (.inl hmessage) _ _).trans (bind_congr fun total => ?_)
    exact (fieldSizes_cons (.inr hmosaics) _ _).trans (bind_pure _)

end TransferTransactionBody

namespace TransferTransaction

/-- The fields of a transfer. -/
def layout : List Field := Transaction.layout ++ TransferTransactionBody.layout

def record (t : TransferTransaction) : Record := t.transaction.record ++ t.body.record

theorem tail (hs : owner.Sound below) (hl : ∀ f ∈ layout, f ∈ owner.fields)
    (hm : Twin read nested "Mosaic" Mosaic.record) : Tail read nested owner layout record :=
  .ofFields (fun t : TransferTransaction => (t.transaction, t.body)) (fun _ => rfl)
    (Transaction.segment.append_tail
      (TransferTransactionBody.tail hs (fun f hf => hl f (List.mem_append_right _ hf)) hm))

end TransferTransaction

namespace EmbeddedTransferTransaction

/-- The fields of an embedded transfer. -/
def layout : List Field := EmbeddedTransaction.layout ++ TransferTransactionBody.layout

def record (t : EmbeddedTransferTransaction) : Record := t.transaction.record ++ t.body.record

theorem tail (hs : owner.Sound below) (hl : ∀ f ∈ layout, f ∈ owner.fields)
    (hm : Twin read nested "Mosaic" Mosaic.record) : Tail read nested owner layout record :=
  .ofFields (fun t : EmbeddedTransferTransaction => (t.transaction, t.body)) (fun _ => rfl)
    (EmbeddedTransaction.segment.append_tail
      (TransferTransactionBody.tail hs (fun f hf => hl f (List.mem_append_right _ hf)) hm))

end EmbeddedTransferTransaction

/-! ### Account properties -/

section Properties

variable {ν : Type} [Plain ν]

namespace AccountPropertiesModification

/-- The fields of a modification. -/
def layout (ν : Type) [Plain ν] : List Field :=
  [⟨"modification_type", .scalar .one⟩, ⟨"value", Plain.kind ν⟩]

def record (m : AccountPropertiesModification ν) : Record :=
  [("modification_type", Plain.content m.modificationType), ("value", Plain.content m.value)]

theorem segment [Wire ν] [LawfulPlain ν] : Segment (layout ν) (record (ν := ν)) :=
  .ofFields (fun m : AccountPropertiesModification ν => (m.modificationType, m.value))
    (fun _ => rfl)
    (.append (.single "modification_type") (.single "value"))

end AccountPropertiesModification

namespace AccountPropertiesTransactionBody

/-- The fields that come after the header, with modifications of the given type. -/
def layout (type : String) : List Field := [
  ⟨"property_type", .scalar .one⟩,
  ⟨"modifications_count", .derived .one "modifications" .itemCount⟩,
  ⟨"modifications", .repeated (.struct type) (.counted "modifications_count")⟩]

def record (b : AccountPropertiesTransactionBody ν) : Record := [
  ("property_type", Plain.content b.propertyType),
  ("modifications", Value.ofItems AccountPropertiesModification.record b.modifications)]

variable {type : String}

theorem derive_modificationsCount (hs : owner.Sound below)
    (hl : ∀ f ∈ layout type, f ∈ owner.fields) {r : Record}
    {b : AccountPropertiesTransactionBody ν} (h : r.Has b.record) :
    Encode.derive nested owner r "modifications" .itemCount = .ok b.modifications.length :=
  derive_count hs
    (hl ⟨"modifications", .repeated (.struct type) (.counted "modifications_count")⟩
      (by simp [layout]))
    (h ("modifications", Value.ofItems AccountPropertiesModification.record b.modifications)
      (by simp [record]))

theorem tail [Wire ν] [LawfulPlain ν] (hs : owner.Sound below)
    (hl : ∀ f ∈ layout type, f ∈ owner.fields)
    (hm : Twin read nested type (AccountPropertiesModification.record (ν := ν))) :
    Tail read nested owner (layout type) (record (ν := ν)) where
  names _ := rfl
  reads frame := by
    have hsized : Decode.fields read {} owner ((layout type).drop 1) frame =
        (Wire.read : Reader UInt8) >>= fun modificationsCount =>
        Group.counted (Wire.read : Reader (AccountPropertiesModification ν))
          modificationsCount.toNat >>= fun modifications =>
          pure [("modifications",
            Value.ofItems AccountPropertiesModification.record modifications)] := by
      refine (fields_word (υ := UInt8) {} _).trans (bind_congr fun modificationsCount => ?_)
      rw [Decode.fields_content rfl, hm.read_counted rfl, LawfulWord.toNat_ofNat_toNat]
      simp only [bind_assoc, pure_bind, Decode.fields_nil]
      rfl
    refine ((Segment.single (ν := UInt8) "property_type").reads read {} owner _ frame).trans ?_
    show (_ >>= fun _ => Decode.fields read {} owner ((layout type).drop 1) frame >>= _) =
      (_ >>= _) >>= _
    rw [hsized]
    simp only [bind_assoc, pure_bind]
    rfl
  writes {r b} h := by
    have hproperty : Encode.fieldBytes nested owner r ⟨"property_type", .scalar .one⟩ =
        Wire.write b.propertyType :=
      LawfulPlain.write_eq nested owner
        (h ("property_type", Plain.content b.propertyType) (by simp [record]))
    have hcount : Encode.fieldBytes nested owner r
        ⟨"modifications_count", .derived .one "modifications" .itemCount⟩ =
          b.modificationsCount >>= fun n => Wire.write n := by
      refine (fieldBytes_word (υ := UInt8)).trans ?_
      rw [derive_modificationsCount hs hl h]
      rfl
    have hmodifications : Encode.fieldBytes nested owner r
        ⟨"modifications", .repeated (.struct type) (.counted "modifications_count")⟩ =
          Wire.writeAll b.modifications :=
      hm.write_items (by simp)
        (h ("modifications", Value.ofItems AccountPropertiesModification.record b.modifications)
          (by simp [record]))
    have hwrite : Wire.write b =
        Wire.write b.propertyType >>= fun propertyType =>
        (b.modificationsCount >>= fun n => Wire.write n) >>= fun modificationsCount =>
        Wire.writeAll b.modifications >>= fun modifications =>
          pure (propertyType ++ modificationsCount ++ modifications) := by
      simp only [bind_assoc]
      rfl
    rw [hwrite]
    simp only [layout, Group.write_cons, Group.write_nil, hproperty, hcount, hmodifications,
      bind_assoc, pure_bind, List.append_assoc, List.append_nil]
  sizes {r b} total h := by
    have hproperty : Encode.fieldSize nested owner ⟨"property_type", .scalar .one⟩
        (r.get? "property_type") = .ok 1 := rfl
    have hcount : Encode.fieldSize nested owner
        ⟨"modifications_count", .derived .one "modifications" .itemCount⟩
        (r.get? "modifications_count") = .ok 1 := rfl
    have hmodifications : Encode.fieldSize nested owner
        ⟨"modifications", .repeated (.struct type) (.counted "modifications_count")⟩
        (r.get? "modifications") = addSize 0 (Wire.sizeAll b.modifications) := by
      rw [h ("modifications", Value.ofItems AccountPropertiesModification.record b.modifications)
        (by simp [record])]
      exact hm.size_items b.modifications
    have hsize : Wire.size b = 1 + (1 + Wire.sizeAll b.modifications) := by
      show 1 + 1 + Wire.sizeAll b.modifications = _
      omega
    rw [hsize]
    simp only [← addSize_add]
    refine (fieldSizes_cons (.inl hproperty) _ _).trans (bind_congr fun total => ?_)
    refine (fieldSizes_cons (.inl hcount) _ _).trans (bind_congr fun total => ?_)
    exact (fieldSizes_cons (.inr hmodifications) _ _).trans (bind_pure _)

end AccountPropertiesTransactionBody

namespace AccountPropertiesTransaction

/-- The fields of an account property transaction with modifications of the given type. -/
def layout (type : String) : List Field :=
  Transaction.layout ++ AccountPropertiesTransactionBody.layout type

def record (t : AccountPropertiesTransaction ν) : Record := t.transaction.record ++ t.body.record

theorem tail [Wire ν] [LawfulPlain ν] {type : String} (hs : owner.Sound below)
    (hl : ∀ f ∈ layout type, f ∈ owner.fields)
    (hm : Twin read nested type (AccountPropertiesModification.record (ν := ν))) :
    Tail read nested owner (layout type) (record (ν := ν)) :=
  .ofFields (fun t : AccountPropertiesTransaction ν => (t.transaction, t.body)) (fun _ => rfl)
    (Transaction.segment.append_tail
      (AccountPropertiesTransactionBody.tail hs (fun f hf => hl f (List.mem_append_right _ hf)) hm))

end AccountPropertiesTransaction

end Properties

/-! ### Aggregates -/

namespace AggregateTransactionBody

/-- The fields that come after the header. -/
def layout : List Field := [
  ⟨"payload_size", .derived .four "transactions" .groupSize⟩,
  ⟨"transactions",
    .repeated (.struct "EmbeddedTransferTransaction") (.budgeted "payload_size")⟩]

def record (b : AggregateTransactionBody) : Record :=
  [("transactions", Value.ofItems EmbeddedTransferTransaction.record b.transactions)]

theorem derive_payloadSize (hs : owner.Sound below) (hl : ∀ f ∈ layout, f ∈ owner.fields)
    (ht : Twin read nested "EmbeddedTransferTransaction" EmbeddedTransferTransaction.record)
    {r : Record} {b : AggregateTransactionBody} (h : r.Has b.record) :
    Encode.derive nested owner r "transactions" .groupSize =
      addSize 0 (Wire.sizeAll b.transactions) :=
  ht.derive_size hs (hl _ (List.mem_cons_of_mem _ List.mem_cons_self)) (h _ List.mem_cons_self)

/-- The size is refused where it is no machine word, and where it is no word of its width. -/
theorem payloadSize_eq (b : AggregateTransactionBody) :
    b.payloadSize = addSize 0 (Wire.sizeAll b.transactions) >>= fun n => Word.derive UInt32 n := by
  show (checkSize (Wire.sizeAll b.transactions) >>= fun _ =>
    Word.derive UInt32 (Wire.sizeAll b.transactions)) = _
  unfold checkSize addSize
  rw [Nat.zero_add]
  split_ifs <;> rfl

theorem tail (hs : owner.Sound below) (hl : ∀ f ∈ layout, f ∈ owner.fields)
    (ht : Twin read nested "EmbeddedTransferTransaction" EmbeddedTransferTransaction.record)
    (hforward : Reader.Forward (read "EmbeddedTransferTransaction")) :
    Tail read nested owner layout record where
  names _ := rfl
  reads frame := by
    refine (fields_word (υ := UInt32) {} _).trans ?_
    show _ = (_ >>= _) >>= _
    rw [bind_assoc]
    refine bind_congr fun payloadSize => ?_
    rw [Decode.fields_content rfl, ht.read_budgeted hforward rfl, LawfulWord.toNat_ofNat_toNat]
    simp only [bind_assoc, pure_bind, Decode.fields_nil]
    rfl
  writes {r b} h := by
    have hsize : Encode.fieldBytes nested owner r
        ⟨"payload_size", .derived .four "transactions" .groupSize⟩ =
          b.payloadSize >>= fun n => Wire.write n := by
      refine (fieldBytes_word (υ := UInt32)).trans ?_
      rw [derive_payloadSize hs hl ht h, payloadSize_eq, bind_assoc]
    have htransactions : Encode.fieldBytes nested owner r
        ⟨"transactions", .repeated (.struct "EmbeddedTransferTransaction")
          (.budgeted "payload_size")⟩ = Wire.writeAll b.transactions :=
      ht.write_items (by simp) (h _ List.mem_cons_self)
    have hwrite : Wire.write b =
        (b.payloadSize >>= fun n => Wire.write n) >>= fun payloadSize =>
        Wire.writeAll b.transactions >>= fun transactions =>
          pure (payloadSize ++ transactions) := by
      simp only [bind_assoc]
      rfl
    rw [hwrite]
    simp only [layout, Group.write_cons, Group.write_nil, hsize, htransactions, bind_assoc,
      pure_bind, List.append_nil]
  sizes {r b} total h := by
    have hsize : Encode.fieldSize nested owner
        ⟨"payload_size", .derived .four "transactions" .groupSize⟩ (r.get? "payload_size") =
          .ok 4 := rfl
    have htransactions : Encode.fieldSize nested owner
        ⟨"transactions", .repeated (.struct "EmbeddedTransferTransaction")
          (.budgeted "payload_size")⟩ (r.get? "transactions") =
            addSize 0 (Wire.sizeAll b.transactions) := by
      rw [h ("transactions", Value.ofItems EmbeddedTransferTransaction.record b.transactions)
        List.mem_cons_self]
      exact ht.size_items b.transactions
    have hall : Wire.size b = 4 + Wire.sizeAll b.transactions := rfl
    rw [hall, ← addSize_add]
    refine (fieldSizes_cons (.inl hsize) _ _).trans (bind_congr fun total => ?_)
    exact (fieldSizes_cons (.inr htransactions) _ _).trans (bind_pure _)

end AggregateTransactionBody

namespace AggregateTransaction

/-- The fields of an aggregate. -/
def layout : List Field := Transaction.layout ++ AggregateTransactionBody.layout

def record (t : AggregateTransaction) : Record := t.transaction.record ++ t.body.record

theorem tail (hs : owner.Sound below) (hl : ∀ f ∈ layout, f ∈ owner.fields)
    (ht : Twin read nested "EmbeddedTransferTransaction" EmbeddedTransferTransaction.record)
    (hforward : Reader.Forward (read "EmbeddedTransferTransaction")) :
    Tail read nested owner layout record :=
  .ofFields (fun t : AggregateTransaction => (t.transaction, t.body)) (fun _ => rfl)
    (Transaction.segment.append_tail
      (AggregateTransactionBody.tail hs (fun f hf => hl f (List.mem_append_right _ hf)) ht
        hforward))

end AggregateTransaction

end Bodies

end WireSchema
