import WireSchema.Wire

/-!
# Headers of transactions

A transaction is its headers followed by its body. A transaction that stands alone has all of them;
one that is embedded in another has neither a signature nor a fee and a deadline.

```
alone:     size | signature | signer version type | fee deadline | body
embedded:  size |             signer version type |                body
```
-/

namespace WireSchema

/-- The public key of an account. -/
abbrev Key := Blob 32

/-- A signature of a transaction. -/
abbrev Signature := Blob 64

/-- The address of an account. -/
abbrev Address := Blob 25

/-- The identifier of a mosaic. -/
abbrev MosaicId := Blob 8

/-- A quantity of a mosaic, as raw bytes. -/
abbrev Amount := Blob 8

/-- The code of a kind of transaction. -/
abbrev EntityType := UInt16

/-- The total size of the entity that follows. It is content like any other: it is not compared with
the input, and not computed. -/
structure SizePrefixedEntity where
  size : UInt32 := 0
deriving DecidableEq, Inhabited

instance : Wire SizePrefixedEntity := .ofFields (·.size) (⟨·⟩)

/-- The signature of a transaction that stands alone. -/
structure VerifiableEntity where
  signature : Signature := .zero _
deriving DecidableEq, Inhabited

instance : Wire VerifiableEntity := .ofFields (·.signature) (⟨·⟩)

/-- The signer, version and kind of an entity. -/
structure EntityBody where
  signer : Key := .zero _
  version : UInt16 := 0
  entityType : EntityType := 0
deriving DecidableEq, Inhabited

instance : Wire EntityBody :=
  .ofFields (fun e => (e.signer, e.version, e.entityType))
    (fun (signer, version, entityType) => ⟨signer, version, entityType⟩)

/-- The header of a transaction that stands alone. -/
structure Transaction where
  entity : SizePrefixedEntity := {}
  verifiable : VerifiableEntity := {}
  body : EntityBody := {}
  fee : UInt64 := 0
  deadline : UInt64 := 0
deriving DecidableEq, Inhabited

instance : Wire Transaction :=
  .ofFields (fun t => (t.entity, t.verifiable, t.body, t.fee, t.deadline))
    (fun (entity, verifiable, body, fee, deadline) => ⟨entity, verifiable, body, fee, deadline⟩)

/-- The header of an embedded transaction. -/
structure EmbeddedTransaction where
  entity : SizePrefixedEntity := {}
  body : EntityBody := {}
deriving DecidableEq, Inhabited

instance : Wire EmbeddedTransaction :=
  .ofFields (fun t => (t.entity, t.body)) (fun (entity, body) => ⟨entity, body⟩)

end WireSchema
