import Mathlib.Data.Nat.Digits.Defs
import WireSchema.Proofs.Codec.Appending
import WireSchema.Proofs.Cursor.Checked
import WireSchema.Proofs.Transaction.Mirror

/-!
# Numbers and their bytes

There are two ways from numbers to bytes and back. A number of a schema has a width, and takes the
first bytes of a machine word; its bytes are read by copying them to the front of eight zero bytes.
A typed word has the width of its type, and is taken apart and put together within the type. Both
ways are those of the little-endian digits, so each is the inverse of itself, and what one of them
writes the other reads.

* `Machine.bytesAt` and `Machine.numberOf`: the first way, with machine words.
* `Width.Converts`: the numbers of a width and the byte strings of its length are the same.
* `Word.Agrees`: a typed word is read and written as its number is.
* `conversions_agree`: both hold at all widths and for the words of all four types.
-/

namespace WireSchema

/-! ### Digits -/

/-- The lowest bytes of a number are the first ones. -/
theorem take_leBytes {k count : Nat} (h : k ≤ count) (n : Nat) :
    (leBytes count n).take k = leBytes k n := by
  induction k generalizing count n with
  | zero => rfl
  | succ k ih =>
    obtain ⟨count, rfl⟩ := Nat.exists_eq_succ_of_ne_zero (Nat.ne_zero_of_lt h)
    rw [leBytes, leBytes, List.take_succ_cons, ih (Nat.le_of_succ_le_succ h)]

/-- Bytes are the digits of their number, lowest first. -/
theorem leValue_eq_ofDigits (bs : Bytes) : leValue bs = Nat.ofDigits 256 (bs.map UInt8.toNat) := by
  induction bs with
  | nil => rfl
  | cons b bs ih => rw [leValue, List.map_cons, Nat.ofDigits_cons, ih]

theorem scalarOfBytes_of_le {bs : Bytes} (h : bs.length ≤ 8) :
    scalarOfBytes bs = .ok (leValue bs) := if_pos h

theorem scalarOfBytes_of_lt {bs : Bytes} (h : 8 < bs.length) :
    scalarOfBytes bs = .error (.tooLarge bs.length 8) := if_neg (Nat.not_le_of_lt h)

theorem length_append_zeros {bs : Bytes} (h : bs.length ≤ 8) :
    (bs ++ List.replicate (8 - bs.length) 0).length = 8 := by
  rw [List.length_append, List.length_replicate, Nat.add_sub_of_le h]

/-! ### Machine words -/

namespace Machine

/-- The lowest bytes of a machine word, lowest first. -/
def lowBytes : (count : Nat) → UInt64 → Bytes
  | 0, _ => []
  | count + 1, n => n.toUInt8 :: lowBytes count (n >>> 8)

/-- The machine word of eight bytes, lowest first. -/
def wordOf (bs : Bytes) : UInt64 := bs.foldr (fun b n => b.toUInt64 ||| (n <<< 8)) 0

/-- The bytes of a machine word at a width are the first of its eight bytes, unless it is larger
than the width allows. -/
def bytesAt (w : Width) (n : UInt64) : Except Error Bytes :=
  if .ofNat w.maxValue < n then .error (.overflow n.toNat w.bytes)
  else .ok ((lowBytes 8 n).take w.bytes)

/-- The machine word of at most eight bytes, which are copied to the front of eight zero bytes. -/
def numberOf (bs : Bytes) : Except Error UInt64 :=
  if 8 < bs.length then .error (.tooLarge bs.length 8)
  else .ok (wordOf (bs ++ (List.replicate 8 0).drop bs.length))

theorem lowBytes_eq (count : Nat) (n : UInt64) : lowBytes count n = leBytes count n.toNat := by
  induction count generalizing n with
  | zero => rfl
  | succ count ih =>
    have hlow : n.toUInt8 = UInt8.ofNat n.toNat := toUInt8_eq_ofNat (UInt64.toNat_toUInt8 n)
    have hhigh : (n >>> 8).toNat = n.toNat / 256 := by
      rw [UInt64.toNat_shiftRight]
      exact Nat.shiftRight_eq_div_pow _ _
    rw [lowBytes, leBytes, ih, hlow, hhigh]

theorem toNat_wordOf {bs : Bytes} (h : bs.length ≤ 8) : (wordOf bs).toNat = leValue bs := by
  refine toNat_foldr UInt64.toNat rfl (fun b n hn => toNat_step64 b hn) ?_
  exact Nat.pow_le_pow_right (by decide) (show bs.length - 1 ≤ 7 by omega)

/-- The largest number of a width is a machine word, so the comparison is that of the numbers. -/
theorem bytesAt_eq (w : Width) (n : UInt64) : bytesAt w n = w.encode n.toNat := by
  have hmax : (UInt64.ofNat w.maxValue).toNat = w.maxValue :=
    UInt64.toNat_ofNat_of_lt' w.maxValue_lt
  have hlt : UInt64.ofNat w.maxValue < n ↔ ¬n.toNat ≤ w.maxValue := by
    rw [UInt64.lt_iff_toNat_lt, hmax, Nat.not_le]
  unfold bytesAt Width.encode
  by_cases hn : n.toNat ≤ w.maxValue
  · rw [if_neg (by rwa [hlt, Decidable.not_not]), if_pos hn, lowBytes_eq, take_leBytes w.bytes_le]
  · rw [if_pos (hlt.2 hn), if_neg hn]

/-- The zero bytes that the bytes are copied over leave their number as it is. -/
theorem toNat_numberOf (bs : Bytes) : (numberOf bs).map UInt64.toNat = scalarOfBytes bs := by
  unfold numberOf
  by_cases h : 8 < bs.length
  · rw [if_pos h, scalarOfBytes_of_lt h]
    rfl
  · have hle : bs.length ≤ 8 := Nat.le_of_not_lt h
    rw [if_neg h, scalarOfBytes_of_le hle, List.drop_replicate]
    refine congrArg Except.ok ?_
    rw [toNat_wordOf (length_append_zeros hle).le, leValue_append_zeros]

end Machine

/-! ### Numbers of a width -/

/-- The numbers of a width and the byte strings of its length are converted to each other, with
machine words as well. -/
structure Width.Converts (w : Width) : Prop where
  /-- A machine word has bytes exactly if the width allows for it. -/
  isOk_encode_iff (n : UInt64) : (∃ bs, w.encode n.toNat = .ok bs) ↔ n.toNat ≤ w.maxValue
  overflow {n : UInt64} : w.maxValue < n.toNat →
    w.encode n.toNat = .error (.overflow n.toNat w.bytes)
  /-- Its bytes are as many as the width has, and their number is the word. -/
  restores {n : UInt64} {bs : Bytes} : w.encode n.toNat = .ok bs →
    bs.length = w.bytes ∧ scalarOfBytes bs = .ok n.toNat
  /-- Any bytes that are as many as the width has are those of their number. -/
  covers {bs : Bytes} : bs.length = w.bytes →
    ∃ n : UInt64, scalarOfBytes bs = .ok n.toNat ∧ w.encode n.toNat = .ok bs
  machine (n : UInt64) : Machine.bytesAt w n = w.encode n.toNat

theorem Width.converts (w : Width) : w.Converts where
  isOk_encode_iff n :=
    ⟨fun ⟨_, h⟩ => (encode_eq_ok_iff.1 h).1, fun h => ⟨_, encode_eq_ok_iff.2 ⟨h, rfl⟩⟩⟩
  overflow h := if_neg (Nat.not_le_of_lt h)
  restores h := ⟨length_of_encode h, scalarOfBytes_of_encode h⟩
  covers {bs} h := by
    have hlt : leValue bs < 256 ^ w.bytes := h ▸ leValue_lt bs
    have hle : leValue bs ≤ w.maxValue := (w.le_maxValue_iff _).2 hlt
    have hn : (UInt64.ofNat (leValue bs)).toNat = leValue bs :=
      UInt64.toNat_ofNat_of_lt' (Nat.lt_of_le_of_lt hle w.maxValue_lt)
    refine ⟨.ofNat (leValue bs), ?_, encode_eq_ok_iff.2 ?_⟩
    · rw [hn]
      exact scalarOfBytes_of_le (h ▸ w.bytes_le)
    · rw [hn]
      exact ⟨hle, by rw [← h, leBytes_leValue]⟩
  machine := Machine.bytesAt_eq w

/-- The number of the next bytes, which are as many as the width has. -/
def Reader.number (w : Width) : Reader UInt64 := do
  match scalarOfBytes (← take w.bytes) with
  | .ok n => return UInt64.ofNat n
  | .error e => throw e

/-- There is no width at which the bytes are too many. -/
theorem Reader.number_eq (w : Width) : Reader.number w = Reader.scalar w := by
  funext c
  refine Reader.bind_congr fun bs c' h => ?_
  obtain ⟨hlength, -⟩ := Reader.take_eq_ok_iff.1 h
  rw [scalarOfBytes_of_le (hlength ▸ w.bytes_le)]

/-! ### Typed words -/

section Words

variable {υ : Type} [Word υ]

/-- The number of a typed word, as a word of eight bytes. -/
def Word.number (a : υ) : UInt64 := .ofNat (Word.toNat a)

/-- Appends a number at a width, unless it does not fit. -/
def Writer.scalar (w : Width) (n : UInt64) : Writer Unit := do put (← of (w.encode n.toNat))

/-- Appends a typed word. -/
def Writer.word (a : υ) : Writer Unit := do put (← of (Wire.write a))

/-- The words of a type are read and written as their numbers are. -/
structure Word.Agrees (υ : Type) [Word υ] : Prop where
  /-- No word loses its number, and no two words have the same. -/
  toNat_number (a : υ) : (Word.number a).toNat = Word.toNat a
  number_injective : Function.Injective (Word.number : υ → UInt64)
  /-- A word is appended as its number, which always fits. -/
  write (a : υ) : Writer.word a = Writer.scalar (Word.width υ) (Word.number a)
  written (a : υ) : ∃ bs : Bytes, bs.length = (Word.width υ).bytes ∧
    ∀ buffer, Writer.word a buffer = .ok () (buffer ++ bs)
  /-- Wherever a word is read, its number is read instead, or the same error, and the cursor is left
  in the same place. -/
  read (c : Cursor) : (do return Word.number (← (Wire.read : Reader υ))) c =
    Reader.scalar (Word.width υ) c
  /-- So it is with machine words, in whatever way the bytes of the word are taken. -/
  checked (s : Script υ) : s.reader = Wire.read → ∀ (storage : Type → Checked.Storage)
    (p : Checked.Position), p.Valid → (∀ β, (storage β).Ample p.input.length) →
      (do return Word.number (← s.run storage)) p = Checked.scalar (Word.width υ) p

theorem Word.agrees (υ : Type) [Word υ] [LawfulWord υ] : Word.Agrees υ where
  toNat_number := LawfulWord.toNat_ofNat_toNat
  number_injective a b h := by
    have h : (Word.number a).toNat = (Word.number b).toNat := congrArg UInt64.toNat h
    unfold Word.number at h
    rw [LawfulWord.toNat_ofNat_toNat, LawfulWord.toNat_ofNat_toNat] at h
    rw [← LawfulWord.ofNat_toNat a, h, LawfulWord.ofNat_toNat]
  write a := by
    unfold Writer.word Writer.scalar Word.number
    rw [LawfulWord.toNat_ofNat_toNat, LawfulWord.encode_eq]
  written a := by
    refine ⟨_, length_leBytes (Word.width υ).bytes (Word.toNat a), fun buffer => ?_⟩
    unfold Writer.word
    rw [LawfulWord.write_eq]
    rfl
  read c := by
    rw [LawfulWord.scalar_eq]
    rfl
  checked s hs storage p hp hroom := by
    have hread := s.follows storage
    rw [hs] at hread
    have hforward : Reader.Forward (Wire.read : Reader υ) :=
      hs ▸ s.elim Reader.compositional_forward
    have hword := (hread.map hforward Word.number).eq_of_ample hp hroom
    have hscalar := (Checked.follows_scalar (Word.width υ)).eq_of_ample hp hroom
    rw [LawfulWord.scalar_eq] at hscalar
    exact hword.trans hscalar.symm

end Words

/-! ### Both ways -/

/-- Numbers are converted to bytes and back without loss at every width. Bytes, of which there may
be fewer than eight and not more, are the digits of their number, and zero bytes behind them do not
matter. The next number of a width is that of the bytes that are taken, and the words of the four
types are read and written as their numbers are. -/
theorem conversions_agree :
    (∀ w : Width, w.Converts) ∧
    (∀ bs : Bytes, bs.length ≤ 8 →
      scalarOfBytes bs = scalarOfBytes (bs ++ List.replicate (8 - bs.length) 0) ∧
        scalarOfBytes bs = .ok (Nat.ofDigits 256 (bs.map UInt8.toNat))) ∧
    (∀ bs : Bytes, 8 < bs.length → scalarOfBytes bs = .error (.tooLarge bs.length 8)) ∧
    (∀ bs : Bytes, (Machine.numberOf bs).map UInt64.toNat = scalarOfBytes bs) ∧
    (∀ w : Width, Reader.number w = Reader.scalar w) ∧
    Word.Agrees UInt8 ∧ Word.Agrees UInt16 ∧ Word.Agrees UInt32 ∧ Word.Agrees UInt64 := by
  refine ⟨Width.converts, fun bs h => ⟨?_, ?_⟩, fun bs => scalarOfBytes_of_lt,
    Machine.toNat_numberOf, Reader.number_eq, Word.agrees _, Word.agrees _, Word.agrees _,
    Word.agrees _⟩
  · have hlength : (bs ++ List.replicate (8 - bs.length) 0).length ≤ 8 := (length_append_zeros h).le
    rw [scalarOfBytes_of_le h, scalarOfBytes_of_le hlength, leValue_append_zeros]
  · rw [scalarOfBytes_of_le h, leValue_eq_ofDigits]

/-- Two bytes: their number with and without zero bytes behind them, the bytes of the number, and
the number of the typed word that is read where they stand between other bytes. -/
theorem conversions_agree_twoBytes :
    scalarOfBytes [0x49, 0xD4] = .ok 54345 ∧
      scalarOfBytes [0x49, 0xD4, 0, 0, 0, 0, 0, 0] = .ok 54345 ∧
      Width.two.encode 54345 = .ok [0x49, 0xD4] ∧
      (do return Word.number (← (Wire.read : Reader UInt16))) ⟨1, [0x49, 0xD4, 7]⟩ =
        .ok 54345 ⟨3, [7]⟩ := by
  obtain ⟨hwidths, hshort, -, -, -, -, hword, -⟩ := conversions_agree
  obtain ⟨hextended, hdigits⟩ := hshort [0x49, 0xD4] (by decide)
  have htwo : ([0x49, 0xD4] : Bytes).length = Width.two.bytes := rfl
  obtain ⟨n, hn, hencode⟩ := (hwidths .two).covers htwo
  have hvalue : scalarOfBytes [0x49, 0xD4] = .ok 54345 := hdigits
  rw [hvalue, Except.ok.injEq] at hn
  exact ⟨hvalue, hextended.symm.trans hvalue, hn ▸ hencode, hword.read _⟩

end WireSchema
