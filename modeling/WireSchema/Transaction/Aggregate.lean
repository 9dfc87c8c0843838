import WireSchema.Transaction.Transfer

/-!
# Aggregates

An aggregate carries embedded transfers. They are bounded by their total size, which comes before
them and is computed when they are written.
-/

namespace WireSchema

/-- The transfers of an aggregate. -/
structure AggregateTransactionBody where
  transactions : List EmbeddedTransferTransaction := []
deriving DecidableEq, Inhabited

namespace AggregateTransactionBody

/-- The length of all transfers together. -/
def payloadSize (b : AggregateTransactionBody) : Except Error UInt32 :=
  Wire.sizeAs UInt32 b.transactions

instance : Wire AggregateTransactionBody where
  read := do
    let payloadSize : UInt32 ← Wire.read
    let transactions ← Group.budgeted Wire.read payloadSize.toNat
    return ⟨transactions⟩
  write b := do
    let payloadSize ← Wire.write (← b.payloadSize)
    let transactions ← Wire.writeAll b.transactions
    return payloadSize ++ transactions
  size b := 4 + Wire.sizeAll b.transactions

end AggregateTransactionBody

/-- A signed aggregate. -/
structure AggregateTransaction where
  transaction : Transaction := {}
  body : AggregateTransactionBody := {}
deriving DecidableEq, Inhabited

instance : Wire AggregateTransaction :=
  .ofFields (fun t => (t.transaction, t.body)) (fun (transaction, body) => ⟨transaction, body⟩)

end WireSchema
