import WireSchema.Proofs.Transaction.RoundTrip

/-!
# Groups that are written

Items that are written one after another are read back by their number and by their bytes alike,
whatever follows them. The two numbers are not part of the items, and are computed from them as
words.

* `Word.Derives`: what it means that a word is computed from a number.
* `Wire.Groupable.reads_writeAll`: what is written of a group is as long as it is measured, is read
  back in both ways, and the words that govern the two readings are its number and its length.
-/

namespace WireSchema

/-! ### Numbers as words -/

section Derives

variable (υ : Type) [Word υ]

/-- A number as a word: the word of this number if there is one, and otherwise an overflow that
carries the number and the bytes of a word. -/
def Word.Derives (n : Nat) (x : Except Error υ) : Prop :=
  (n < 256 ^ (Word.width υ).bytes → ∃ d, x = .ok d ∧ Word.toNat d = n) ∧
    (256 ^ (Word.width υ).bytes ≤ n → x = .error (.overflow n (Word.width υ).bytes))

theorem Word.derives_derive [LawfulWord υ] (n : Nat) : Word.Derives υ n (Word.derive υ n) := by
  have hfits := (Word.width υ).le_maxValue_iff n
  unfold Word.Derives Word.derive
  constructor
  · intro h
    rw [if_pos (hfits.2 h)]
    exact ⟨_, rfl, LawfulWord.toNat_ofNat (hfits.2 h)⟩
  · intro h
    exact if_neg fun hle => Nat.not_lt.2 h (hfits.1 hle)

/-- The length of items that no machine can hold is not computed. -/
theorem Wire.sizeAs_of_le {α : Type} [Wire α] {items : List α}
    (h : 2 ^ 64 ≤ Wire.sizeAll items) : Wire.sizeAs υ items = .error (.abort .sizeOverflow) := by
  unfold Wire.sizeAs checkSize
  rw [if_neg (Nat.not_lt.2 h)]
  rfl

end Derives

/-! ### Groups -/

namespace Wire

variable {α : Type} [Wire α] {items : List α} {bs : Bytes}

/-- A group that is written is as long as it is measured. Reading as many items, or as many bytes,
gives the items and stops behind them, wherever they stand and whatever follows. The number of the
items and the number of their bytes are computed as words of any width: they are these numbers if
they fit, and are refused with these numbers otherwise. -/
theorem Groupable.reads_writeAll (h : Groupable α) (hw : writeAll items = .ok bs) :
    bs.length = sizeAll items ∧
    (∀ (offset : Nat) (rest : Bytes),
      Group.counted read items.length ⟨offset, bs ++ rest⟩ =
        .ok items ⟨offset + bs.length, rest⟩ ∧
      Group.budgeted read bs.length ⟨offset, bs ++ rest⟩ =
        .ok items ⟨offset + bs.length, rest⟩) ∧
    ∀ (υ : Type) [Word υ] [LawfulWord υ],
      Word.Derives υ items.length (countAs υ items) ∧
      (bs.length < 2 ^ 64 → Word.Derives υ bs.length (sizeAs υ items)) ∧
      (2 ^ 64 ≤ bs.length → sizeAs υ items = .error (.abort .sizeOverflow)) := by
  have hlength : bs.length = sizeAll items := h.length_of_writeAll hw
  refine ⟨hlength, fun offset rest => ⟨?_, ?_⟩, fun υ _ _ => ⟨?_, ?_, ?_⟩⟩
  · exact h.reads_counted hw _ _ ⟨rfl, rfl⟩
  · exact h.reads_budgeted hw _ _ ⟨rfl, rfl⟩
  · exact Word.derives_derive υ items.length
  · intro hlt
    rw [hlength] at hlt ⊢
    rw [sizeAs_eq_derive hlt]
    exact Word.derives_derive υ (sizeAll items)
  · intro hle
    rw [hlength] at hle
    exact sizeAs_of_le υ hle

end Wire

/-- Two transfers of different lengths, with one byte in front of them and one behind. -/
theorem Wire.Groupable.reads_writeAll_transfers :
    let items : List TransferTransactionBody :=
      [⟨.zero 25, [1, 2], []⟩, ⟨.zero 25, [], [⟨.zero 8, .zero 8⟩]⟩]
    let bs : Bytes := List.replicate 25 0 ++ [2, 0, 0, 1, 2] ++ List.replicate 25 0 ++ [0, 0, 1] ++
      List.replicate 16 0
    Groupable TransferTransactionBody ∧ writeAll items = .ok bs ∧ bs.length = 74 ∧
      Group.counted Wire.read 2 ⟨1, bs ++ [9]⟩ = .ok items ⟨75, [9]⟩ ∧
      Group.budgeted Wire.read 74 ⟨1, bs ++ [9]⟩ = .ok items ⟨75, [9]⟩ ∧
      Word.Derives UInt8 74 (sizeAs UInt8 items) := by
  intro items bs
  have hw : writeAll items = .ok bs := by rfl
  obtain ⟨-, hread, hderive⟩ := reads_writeAll TransferTransactionBody.groupable hw
  exact ⟨TransferTransactionBody.groupable, hw, by decide, (hread 1 [9]).1, (hread 1 [9]).2,
    (hderive UInt8).2.1 (by decide)⟩

end WireSchema
