import WireSchema.Transaction.AccountProperties
import WireSchema.Transaction.Aggregate
import WireSchema.Proofs.Transaction.Laws

/-!
# Scripts of the typed structures

Every typed structure is read by a script. The script of a type with fields only is made of those of
its fields; the bodies with sizes and counts read these first, and then as much as they say.
-/

namespace WireSchema

open Reader (compositional_scripted)
open Wire.Scripted (scripted_read ofFields)

instance : Wire.Scripted SizePrefixedEntity := ofFields _ _

instance : Wire.Scripted VerifiableEntity := ofFields _ _

instance : Wire.Scripted EntityBody := ofFields _ _

instance : Wire.Scripted Transaction := ofFields _ _

instance : Wire.Scripted EmbeddedTransaction := ofFields _ _

/-! ### Transfers -/

instance : Wire.Scripted Mosaic := ofFields _ _

instance : Wire.Scripted TransferTransactionBody where
  scripted_read := by
    refine compositional_scripted.bind scripted_read fun _ => ?_
    refine compositional_scripted.bind scripted_read fun messageSize => ?_
    refine compositional_scripted.bind scripted_read fun mosaicsCount => ?_
    refine compositional_scripted.bind (compositional_scripted.take _) fun _ => ?_
    exact compositional_scripted.map (compositional_scripted.counted scripted_read _) _

instance : Wire.Scripted TransferTransaction := ofFields _ _

instance : Wire.Scripted EmbeddedTransferTransaction := ofFields _ _

/-! ### Account properties -/

section Properties

variable {ν : Type} [Wire ν] [Wire.Scripted ν]

instance : Wire.Scripted (AccountPropertiesModification ν) := ofFields _ _

instance : Wire.Scripted (AccountPropertiesTransactionBody ν) where
  scripted_read := by
    refine compositional_scripted.bind scripted_read fun _ => ?_
    refine compositional_scripted.bind scripted_read fun modificationsCount => ?_
    exact compositional_scripted.map (compositional_scripted.counted scripted_read _) _

instance : Wire.Scripted (AccountPropertiesTransaction ν) := ofFields _ _

instance : Wire.Scripted (EmbeddedAccountPropertiesTransaction ν) := ofFields _ _

end Properties

/-! ### Aggregates -/

instance : Wire.Scripted AggregateTransactionBody where
  scripted_read := by
    refine compositional_scripted.bind scripted_read fun payloadSize => ?_
    exact compositional_scripted.map
      (compositional_scripted.budgetedWith (fun _ => scripted_read) _) _

instance : Wire.Scripted AggregateTransaction := ofFields _ _

end WireSchema
