/-!
# Arithmetic

The powers and the sums of numbers are those of the core library. The instances that are found for
them are fixed here, so that a formula means the same where the algebra of Mathlib is imported and
where it is not.
-/

namespace WireSchema

@[default_instance 10000]
instance (priority := 10000) powNat : Pow Nat Nat := instPowNat

instance (priority := 10000) zeroNat : Zero Nat := Zero.ofOfNat0

end WireSchema
