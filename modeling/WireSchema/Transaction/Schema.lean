import WireSchema.Tool

/-!
# The schema of the transactions

The layouts of all the structures of transactions as a schema document, in YAML. `transactionSchema`
is the schema that it resolves to.
-/

namespace WireSchema

/-- The schema document of the transactions. Its comments begin with `\x23`. -/
def transactionDocument : String :=
"\x23 Scalars
uint8:
  type: byte
  size: 1
  signedness: unsigned
uint16:
  type: byte
  size: 2
  signedness: unsigned
uint32:
  type: byte
  size: 4
  signedness: unsigned
uint64:
  type: byte
  size: 8
  signedness: unsigned

\x23 Fixed-width blobs
Key:
  type: byte
  size: 32
Signature:
  type: byte
  size: 64
Address:
  type: byte
  size: 25
MosaicId:
  type: byte
  size: 8
Amount:
  type: byte
  size: 8

EntityType:
  type: enum
  size: 2
  values:
    - name: transfer
      value: 16724
    - name: aggregate_complete
      value: 16705
    - name: account_properties_address
      value: 16720
    - name: account_properties_mosaic
      value: 16976
    - name: account_properties_entity_type
      value: 17232

\x23 Headers
SizePrefixedEntity:
  type: struct
  layout:
    - name: size
      type: uint32
VerifiableEntity:
  type: struct
  layout:
    - name: signature
      type: Signature
EntityBody:
  type: struct
  layout:
    - name: signer
      type: Key
    - name: version
      type: uint16
    - name: type
      type: EntityType
Transaction:
  type: struct
  layout:
    - disposition: inline
      type: SizePrefixedEntity
    - disposition: inline
      type: VerifiableEntity
    - disposition: inline
      type: EntityBody
    - name: fee
      type: uint64
    - name: deadline
      type: uint64
EmbeddedTransaction:
  type: struct
  layout:
    - disposition: inline
      type: SizePrefixedEntity
    - disposition: inline
      type: EntityBody

\x23 Transfer
Mosaic:
  type: struct
  layout:
    - name: mosaic_id
      type: MosaicId
    - name: amount
      type: Amount
TransferTransactionBody:
  type: struct
  layout:
    - name: recipient
      type: Address
    - name: message_size
      type: uint16
    - name: mosaics_count
      type: uint8
    - name: message
      type: byte
      size: message_size
    - name: mosaics
      type: Mosaic
      size: mosaics_count
TransferTransaction:
  type: struct
  layout:
    - disposition: inline
      type: Transaction
    - disposition: inline
      type: TransferTransactionBody
EmbeddedTransferTransaction:
  type: struct
  layout:
    - disposition: inline
      type: EmbeddedTransaction
    - disposition: inline
      type: TransferTransactionBody

\x23 Account properties
AddressModification:
  type: struct
  layout:
    - name: modification_type
      type: uint8
    - name: value
      type: Address
MosaicModification:
  type: struct
  layout:
    - name: modification_type
      type: uint8
    - name: value
      type: MosaicId
EntityTypeModification:
  type: struct
  layout:
    - name: modification_type
      type: uint8
    - name: value
      type: EntityType
AccountPropertiesAddressTransaction:
  type: struct
  layout:
    - disposition: inline
      type: Transaction
    - name: property_type
      type: uint8
    - name: modifications_count
      type: uint8
    - name: modifications
      type: AddressModification
      size: modifications_count
AccountPropertiesMosaicTransaction:
  type: struct
  layout:
    - disposition: inline
      type: Transaction
    - name: property_type
      type: uint8
    - name: modifications_count
      type: uint8
    - name: modifications
      type: MosaicModification
      size: modifications_count
AccountPropertiesEntityTypeTransaction:
  type: struct
  layout:
    - disposition: inline
      type: Transaction
    - name: property_type
      type: uint8
    - name: modifications_count
      type: uint8
    - name: modifications
      type: EntityTypeModification
      size: modifications_count

\x23 Aggregate
AggregateTransaction:
  type: struct
  layout:
    - disposition: inline
      type: Transaction
    - name: payload_size
      type: uint32
    - name: transactions
      type: EmbeddedTransferTransaction
      size: payload_size
      sizing: bytes
"

/-- The schema of the transactions. -/
def transactionSchema : Except SchemaError Schema :=
  Schema.ofYaml transactionDocument

end WireSchema
