import WireSchema.Transaction.Entity

/-!
# Transfers

A transfer sends mosaics and a message to a recipient. The size of the message and the number of
mosaics both come before the message, and are computed when a transfer is written:

```
recipient | message size | number of mosaics | message | mosaics
```
-/

namespace WireSchema

/-- A quantity of a single mosaic. -/
structure Mosaic where
  mosaicId : MosaicId := .zero _
  amount : Amount := .zero _
deriving DecidableEq, Inhabited

instance : Wire Mosaic :=
  .ofFields (fun m => (m.mosaicId, m.amount)) (fun (mosaicId, amount) => ⟨mosaicId, amount⟩)

/-- The body of a transfer. -/
structure TransferTransactionBody where
  recipient : Address := .zero _
  message : Bytes := []
  mosaics : List Mosaic := []
deriving DecidableEq, Inhabited

namespace TransferTransactionBody

/-- The length of the message. -/
def messageSize (b : TransferTransactionBody) : Except Error UInt16 :=
  Word.derive UInt16 b.message.length

/-- The number of mosaics. -/
def mosaicsCount (b : TransferTransactionBody) : Except Error UInt8 :=
  Wire.countAs UInt8 b.mosaics

instance : Wire TransferTransactionBody where
  read := do
    let recipient : Address ← Wire.read
    let messageSize : UInt16 ← Wire.read
    let mosaicsCount : UInt8 ← Wire.read
    let message ← Reader.take messageSize.toNat
    let mosaics ← Group.counted Wire.read mosaicsCount.toNat
    return ⟨recipient, message, mosaics⟩
  write b := do
    let recipient ← Wire.write b.recipient
    let messageSize ← Wire.write (← b.messageSize)
    let mosaicsCount ← Wire.write (← b.mosaicsCount)
    let mosaics ← Wire.writeAll b.mosaics
    return recipient ++ messageSize ++ mosaicsCount ++ b.message ++ mosaics
  size b := 25 + 2 + 1 + b.message.length + Wire.sizeAll b.mosaics

end TransferTransactionBody

/-- A transfer that stands alone. -/
structure TransferTransaction where
  transaction : Transaction := {}
  body : TransferTransactionBody := {}
deriving DecidableEq, Inhabited

instance : Wire TransferTransaction :=
  .ofFields (fun t => (t.transaction, t.body)) (fun (transaction, body) => ⟨transaction, body⟩)

/-- A transfer that is embedded in another transaction. -/
structure EmbeddedTransferTransaction where
  transaction : EmbeddedTransaction := {}
  body : TransferTransactionBody := {}
deriving DecidableEq, Inhabited

instance : Wire EmbeddedTransferTransaction :=
  .ofFields (fun t => (t.transaction, t.body)) (fun (transaction, body) => ⟨transaction, body⟩)

end WireSchema
