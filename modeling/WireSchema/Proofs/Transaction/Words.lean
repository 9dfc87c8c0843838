import WireSchema.Wire
import WireSchema.Proofs.Reading
import WireSchema.Proofs.Codec.Writing

/-!
# Words and blobs as fields

A typed word is put together from its bytes and taken apart again by shifts, a scalar of a schema by
arithmetic. `LawfulWord` says that the two agree; it holds of the words of all four widths. A typed
blob carries its length in its type, and is read and written as a blob of that length is.
-/

namespace WireSchema

/-! ### Blobs -/

/-- Reading a typed blob is reading as many bytes. -/
theorem Blob.read_bind {β : Type} {n : Nat} {f : Blob n → Reader β} {g : Bytes → Reader β}
    (h : ∀ b, f b = g b.data) : (Blob.read n >>= f) = (Reader.take n >>= g) := by
  funext c
  by_cases hlen : (c.rest.take n).length = n
  · have hblob : Blob.read n c = .ok ⟨c.rest.take n, hlen⟩ ⟨c.offset + n, c.rest.drop n⟩ :=
      dif_pos hlen
    have htake : Reader.take n c = .ok (c.rest.take n) ⟨c.offset + n, c.rest.drop n⟩ :=
      if_pos hlen
    simp only [bind, EStateM.bind, hblob, htake, h]
  · have hblob : Blob.read n c = .error (.outOfRange n c.remaining) c := dif_neg hlen
    have htake : Reader.take n c = .error (.outOfRange n c.remaining) c := if_neg hlen
    simp only [bind, EStateM.bind, hblob, htake]

theorem Blob.leValue_lt {n : Nat} (b : Blob n) : leValue b.data < 256 ^ n := by
  have h := WireSchema.leValue_lt b.data
  rwa [b.length_eq] at h

/-! ### Words -/

/-- A word that is read and written as the scalar of its width. -/
class LawfulWord (υ : Type) [Word υ] : Prop where
  toNat_le (a : υ) : Word.toNat a ≤ (Word.width υ).maxValue
  ofNat_toNat (a : υ) : Word.ofNat (Word.toNat a) = a
  toNat_ofNat {n : Nat} : n ≤ (Word.width υ).maxValue → Word.toNat (Word.ofNat n : υ) = n
  read_eq : (Wire.read : Reader υ) =
    Reader.take (Word.width υ).bytes >>= fun bs => pure (Word.ofNat (leValue bs))
  write_eq (a : υ) : Wire.write a = .ok (leBytes (Word.width υ).bytes (Word.toNat a))
  size_eq (a : υ) : Wire.size a = (Word.width υ).bytes

theorem Word.derive_eq_ok_iff {υ : Type} [Word υ] [LawfulWord υ] {n : Nat} {d : υ} :
    Word.derive υ n = .ok d ↔ n = Word.toNat d := by
  unfold Word.derive
  constructor
  · intro h
    split at h
    · next hn =>
      cases h
      exact (LawfulWord.toNat_ofNat hn).symm
    · cases h
  · rintro rfl
    rw [if_pos (LawfulWord.toNat_le d), LawfulWord.ofNat_toNat]

/-- A byte in front of the bytes of a number. -/
theorem or_shiftLeft {b : Nat} (hb : b < 256) (n : Nat) : b ||| (n <<< 8) = b + 256 * n := by
  have hadd : n <<< 8 + b = n <<< 8 ||| b := Nat.shiftLeft_add_eq_or_of_lt hb n
  rw [Nat.or_comm, ← hadd, Nat.shiftLeft_eq]
  omega

/-- If a step puts a byte in front of a number below a bound, then the steps over some bytes make up
the number of these bytes. -/
theorem toNat_foldr {σ : Type} (toNat : σ → Nat) {step : UInt8 → σ → σ} {zero : σ} {bound : Nat}
    (hzero : toNat zero = 0)
    (hstep : ∀ b n, toNat n < bound → toNat (step b n) = b.toNat + 256 * toNat n) {data : Bytes}
    (h : 256 ^ (data.length - 1) ≤ bound) : toNat (data.foldr step zero) = leValue data := by
  induction data with
  | nil => exact hzero
  | cons b bs ih =>
    rw [List.length_cons, Nat.add_sub_cancel] at h
    have hbs : toNat (bs.foldr step zero) = leValue bs :=
      ih (Nat.le_trans (Nat.pow_le_pow_right (by decide) (Nat.sub_le _ _)) h)
    have hlt : toNat (bs.foldr step zero) < bound := by
      rw [hbs]
      exact Nat.lt_of_lt_of_le (leValue_lt bs) h
    rw [List.foldr_cons, hstep b _ hlt, hbs, leValue]

section Steps

variable (b : UInt8)

theorem toNat_step16 {n : UInt16} (h : n.toNat < 2 ^ 8) :
    (b.toUInt16 ||| (n <<< 8)).toNat = b.toNat + 256 * n.toNat := by
  have hshift : n.toNat <<< 8 % 2 ^ 16 = n.toNat <<< 8 := by
    rw [Nat.shiftLeft_eq]
    omega
  rw [UInt16.toNat_or, UInt16.toNat_shiftLeft, UInt8.toNat_toUInt16]
  exact (congrArg (b.toNat ||| ·) hshift).trans (or_shiftLeft b.toNat_lt _)

theorem toNat_step32 {n : UInt32} (h : n.toNat < 2 ^ 24) :
    (b.toUInt32 ||| (n <<< 8)).toNat = b.toNat + 256 * n.toNat := by
  have hshift : n.toNat <<< 8 % 2 ^ 32 = n.toNat <<< 8 := by
    rw [Nat.shiftLeft_eq]
    omega
  rw [UInt32.toNat_or, UInt32.toNat_shiftLeft, UInt8.toNat_toUInt32]
  exact (congrArg (b.toNat ||| ·) hshift).trans (or_shiftLeft b.toNat_lt _)

theorem toNat_step64 {n : UInt64} (h : n.toNat < 2 ^ 56) :
    (b.toUInt64 ||| (n <<< 8)).toNat = b.toNat + 256 * n.toNat := by
  have hshift : n.toNat <<< 8 % 2 ^ 64 = n.toNat <<< 8 := by
    rw [Nat.shiftLeft_eq]
    omega
  rw [UInt64.toNat_or, UInt64.toNat_shiftLeft, UInt8.toNat_toUInt64]
  exact (congrArg (b.toNat ||| ·) hshift).trans (or_shiftLeft b.toNat_lt _)

end Steps

/-- The byte of a number at some place. -/
theorem toUInt8_eq_ofNat {byte : UInt8} {n : Nat} (h : byte.toNat = n % 256) :
    byte = UInt8.ofNat n := by
  apply UInt8.toNat_inj.1
  rw [h, UInt8.toNat_ofNat']

instance : LawfulWord UInt8 where
  toNat_le a := Nat.le_sub_one_of_lt a.toNat_lt
  ofNat_toNat a := UInt8.ofNat_toNat
  toNat_ofNat h := UInt8.toNat_ofNat_of_lt' (Nat.lt_of_le_of_lt h (by decide))
  read_eq := by
    refine Blob.read_bind fun b => ?_
    obtain ⟨data, hlen⟩ := b
    obtain ⟨x, rfl⟩ := List.length_eq_one_iff.1 hlen
    simp [leValue, Word.ofNat]
  write_eq a := by simp [Wire.write, Word.width, Width.bytes, leBytes, Word.toNat]
  size_eq _ := rfl

instance : LawfulWord UInt16 where
  toNat_le a := Nat.le_sub_one_of_lt a.toNat_lt
  ofNat_toNat a := UInt16.ofNat_toNat
  toNat_ofNat h := UInt16.toNat_ofNat_of_lt' (Nat.lt_of_le_of_lt h (by decide))
  read_eq := by
    refine Blob.read_bind fun b => congrArg pure ?_
    have hfold : UInt16.toNat (b.data.foldr (fun b n => b.toUInt16 ||| (n <<< 8)) 0) =
        leValue b.data := by
      refine toNat_foldr UInt16.toNat rfl (fun b n h => toNat_step16 b h) ?_
      simp [b.length_eq]
    apply UInt16.toNat_inj.1
    rw [hfold]
    exact (UInt16.toNat_ofNat_of_lt' b.leValue_lt).symm
  write_eq a := by
    refine congrArg Except.ok ?_
    simp only [Word.width, Width.bytes, leBytes, Word.toNat, List.cons.injEq, and_true]
    refine ⟨toUInt8_eq_ofNat ?_, toUInt8_eq_ofNat ?_⟩ <;>
      simp [Nat.shiftRight_eq_div_pow]
  size_eq _ := rfl

instance : LawfulWord UInt32 where
  toNat_le a := Nat.le_sub_one_of_lt a.toNat_lt
  ofNat_toNat a := UInt32.ofNat_toNat
  toNat_ofNat h := UInt32.toNat_ofNat_of_lt' (Nat.lt_of_le_of_lt h (by decide))
  read_eq := by
    refine Blob.read_bind fun b => congrArg pure ?_
    have hfold : UInt32.toNat (b.data.foldr (fun b n => b.toUInt32 ||| (n <<< 8)) 0) =
        leValue b.data := by
      refine toNat_foldr UInt32.toNat rfl (fun b n h => toNat_step32 b h) ?_
      simp [b.length_eq]
    apply UInt32.toNat_inj.1
    rw [hfold]
    exact (UInt32.toNat_ofNat_of_lt' b.leValue_lt).symm
  write_eq a := by
    refine congrArg Except.ok ?_
    simp only [Word.width, Width.bytes, leBytes, Word.toNat, List.cons.injEq, and_true]
    refine ⟨toUInt8_eq_ofNat ?_, toUInt8_eq_ofNat ?_, toUInt8_eq_ofNat ?_,
      toUInt8_eq_ofNat ?_⟩ <;>
      simp [Nat.shiftRight_eq_div_pow, Nat.div_div_eq_div_mul]
  size_eq _ := rfl

instance : LawfulWord UInt64 where
  toNat_le a := Nat.le_sub_one_of_lt a.toNat_lt
  ofNat_toNat a := UInt64.ofNat_toNat
  toNat_ofNat h := UInt64.toNat_ofNat_of_lt' (Nat.lt_of_le_of_lt h (by decide))
  read_eq := by
    refine Blob.read_bind fun b => congrArg pure ?_
    have hfold : UInt64.toNat (b.data.foldr (fun b n => b.toUInt64 ||| (n <<< 8)) 0) =
        leValue b.data := by
      refine toNat_foldr UInt64.toNat rfl (fun b n h => toNat_step64 b h) ?_
      simp [b.length_eq]
    apply UInt64.toNat_inj.1
    rw [hfold]
    exact (UInt64.toNat_ofNat_of_lt' b.leValue_lt).symm
  write_eq a := by
    refine congrArg Except.ok ?_
    simp only [Word.width, Width.bytes, leBytes, Word.toNat, List.cons.injEq, and_true]
    refine ⟨toUInt8_eq_ofNat ?_, toUInt8_eq_ofNat ?_, toUInt8_eq_ofNat ?_, toUInt8_eq_ofNat ?_,
      toUInt8_eq_ofNat ?_, toUInt8_eq_ofNat ?_, toUInt8_eq_ofNat ?_, toUInt8_eq_ofNat ?_⟩ <;>
      simp [Nat.shiftRight_eq_div_pow, Nat.div_div_eq_div_mul]
  size_eq _ := rfl

end WireSchema
