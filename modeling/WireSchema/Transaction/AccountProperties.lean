import WireSchema.Transaction.Entity

/-!
# Account property transactions

An account property transaction adds values to one of the property lists of an account, or removes
them. Its three variants differ only in the values: addresses, mosaics or kinds of transaction. The
number of modifications comes before them, and is computed when they are written.
-/

namespace WireSchema

/-- The addition or removal of a value. -/
structure AccountPropertiesModification (ν : Type) where
  modificationType : UInt8
  value : ν
deriving DecidableEq, Inhabited

instance {ν : Type} [Wire ν] : Wire (AccountPropertiesModification ν) :=
  .ofFields (fun m => (m.modificationType, m.value))
    (fun (modificationType, value) => ⟨modificationType, value⟩)

/-- A kind of property, and the modifications of it. -/
structure AccountPropertiesTransactionBody (ν : Type) where
  propertyType : UInt8 := 0
  modifications : List (AccountPropertiesModification ν) := []
deriving DecidableEq, Inhabited

namespace AccountPropertiesTransactionBody

variable {ν : Type}

/-- The number of modifications. -/
def modificationsCount (b : AccountPropertiesTransactionBody ν) : Except Error UInt8 :=
  Wire.countAs UInt8 b.modifications

instance [Wire ν] : Wire (AccountPropertiesTransactionBody ν) where
  read := do
    let propertyType : UInt8 ← Wire.read
    let modificationsCount : UInt8 ← Wire.read
    let modifications ← Group.counted Wire.read modificationsCount.toNat
    return ⟨propertyType, modifications⟩
  write b := do
    let propertyType ← Wire.write b.propertyType
    let modificationsCount ← Wire.write (← b.modificationsCount)
    let modifications ← Wire.writeAll b.modifications
    return propertyType ++ modificationsCount ++ modifications
  size b := 1 + 1 + Wire.sizeAll b.modifications

end AccountPropertiesTransactionBody

/-- An account property transaction that stands alone. -/
structure AccountPropertiesTransaction (ν : Type) where
  transaction : Transaction := {}
  body : AccountPropertiesTransactionBody ν := {}
deriving DecidableEq, Inhabited

instance {ν : Type} [Wire ν] : Wire (AccountPropertiesTransaction ν) :=
  .ofFields (fun t => (t.transaction, t.body)) (fun (transaction, body) => ⟨transaction, body⟩)

/-- An account property transaction that is embedded in another transaction. -/
structure EmbeddedAccountPropertiesTransaction (ν : Type) where
  transaction : EmbeddedTransaction := {}
  body : AccountPropertiesTransactionBody ν := {}
deriving DecidableEq, Inhabited

instance {ν : Type} [Wire ν] : Wire (EmbeddedAccountPropertiesTransaction ν) :=
  .ofFields (fun t => (t.transaction, t.body)) (fun (transaction, body) => ⟨transaction, body⟩)

end WireSchema
