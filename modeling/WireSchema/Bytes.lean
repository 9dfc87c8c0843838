import WireSchema.Arithmetic

/-!
# Bytes and little-endian numbers

Everything on the wire is a list of bytes, and every number on the wire is little-endian.

* `leBytes` writes a number into a given count of bytes, lowest byte first.
* `leValue` reads any count of bytes back as a number.

The two are inverse to each other: on numbers that fit (`leValue_leBytes`) and on all byte lists
(`leBytes_leValue`).
-/

namespace WireSchema

/-- A byte string. -/
abbrev Bytes := List UInt8

/-- The `count` lowest bytes of `n`, lowest first. -/
def leBytes : (count n : Nat) → Bytes
  | 0, _ => []
  | count + 1, n => UInt8.ofNat n :: leBytes count (n / 256)

/-- The number whose little-endian bytes are given. -/
def leValue : Bytes → Nat
  | [] => 0
  | b :: bs => b.toNat + 256 * leValue bs

@[simp] theorem length_leBytes (count n : Nat) : (leBytes count n).length = count := by
  induction count generalizing n with
  | zero => rfl
  | succ count ih => simp [leBytes, ih]

theorem leValue_lt (bs : Bytes) : leValue bs < 256 ^ bs.length := by
  induction bs with
  | nil => simp [leValue]
  | cons b bs ih =>
    have hb := b.toNat_lt
    simp only [leValue, List.length_cons, Nat.pow_succ]
    omega

/-- A number is read back from its bytes up to the bytes that were not written. -/
theorem leValue_leBytes_mod (count n : Nat) : leValue (leBytes count n) = n % 256 ^ count := by
  induction count generalizing n with
  | zero => simp [leBytes, leValue, Nat.mod_one]
  | succ count ih =>
    have hb : (UInt8.ofNat n).toNat = n % 256 := UInt8.toNat_ofNat'
    rw [leBytes, leValue, hb, ih, Nat.pow_succ, Nat.mul_comm (256 ^ count), Nat.mod_mul]

theorem leValue_leBytes {count n : Nat} (h : n < 256 ^ count) :
    leValue (leBytes count n) = n := by
  rw [leValue_leBytes_mod, Nat.mod_eq_of_lt h]

theorem leBytes_leValue (bs : Bytes) : leBytes bs.length (leValue bs) = bs := by
  induction bs with
  | nil => rfl
  | cons b bs ih =>
    have hb := b.toNat_lt
    have hd : (b.toNat + 256 * leValue bs) / 256 = leValue bs := by omega
    have hm : UInt8.ofNat (b.toNat + 256 * leValue bs) = b := by
      apply UInt8.toNat_inj.1
      have : (UInt8.ofNat (b.toNat + 256 * leValue bs)).toNat =
          (b.toNat + 256 * leValue bs) % 256 := UInt8.toNat_ofNat'
      omega
    simp only [List.length_cons, leBytes, leValue, hd, hm, ih]

/-- Zero bytes at the high end do not change the number. -/
theorem leValue_append_zeros (bs : Bytes) (k : Nat) :
    leValue (bs ++ List.replicate k 0) = leValue bs := by
  induction bs with
  | nil =>
    induction k with
    | zero => rfl
    | succ k ih =>
      have h : leValue (List.replicate k 0) = 0 := ih
      simp [List.replicate_succ, leValue, h]
  | cons b bs ih => simp [leValue, ih]

end WireSchema
