import Mathlib.Data.Set.Operations
import WireSchema.Proofs.Reading

/-!
# Positions in an input

The readers of this library count in natural numbers, move over the rest of an input, and have no
way to fail but with an `Error`. A program keeps the whole input and an offset into it, and every
sum, every difference and every slice that it takes may go out of range. It puts the items of a
group into a vector, which takes no more bytes than half a machine word can count. This module reads
bytes in that way, with each operation on offsets spelled out and checked, and says for which
vectors there is room.

* `Checked.Position` and `Checked.Reader`: readers with machine words.
* `Checked.Storage`: which vectors there is room for.
* `Checked.Follows`: a reader with machine words does what a plain reader does, unless there is no
  room for a vector. None of its other operations goes out of range.
-/

namespace WireSchema

namespace Checked

/-- Why reading stops before its end. -/
inductive Stop where
  | fails (e : Error)
  /-- A vector would take too many bytes to have the capacity. -/
  | noRoom (capacity : Nat)
  /-- Another operation goes out of range. -/
  | panics
deriving DecidableEq, Repr

/-- A position in an input, of which the whole is kept. -/
structure Position where
  input : Bytes
  offset : Nat
deriving DecidableEq, Repr

/-- A computation that reads with machine words. -/
abbrev Reader := EStateM Stop Position

/-! ### Operations -/

/-- Stops with an error. -/
def fail {α : Type} (e : Error) : Reader α := throw (.fails e)

/-- A sum, which has to be a machine word. -/
def add (m n : Nat) : Reader Nat := if m + n < 2 ^ 64 then pure (m + n) else throw .panics

/-- A difference, which must not be negative. -/
def sub (m n : Nat) : Reader Nat := if n ≤ m then pure (m - n) else throw .panics

/-- The number of bytes before the position. -/
def offset : Reader Nat := fun p => .ok p.offset p

/-- Goes to another position. -/
def goTo (offset : Nat) : Reader Unit := fun p => .ok () { p with offset := offset }

/-- The bytes of the input from one offset to another, which must be in order and inside it. -/
def slice (start stop : Nat) : Reader Bytes := fun p =>
  if start ≤ stop ∧ stop ≤ p.input.length then
    .ok ((p.input.drop start).take (stop - start)) p
  else .error .panics p

/-- The number of bytes after the position. -/
def remaining : Reader Nat := fun p => sub p.input.length p.offset p

/-- Refuses to go on unless `n` bytes are left. -/
def atLeast (n : Nat) : Reader Unit := do
  let left ← remaining
  if left < n then fail (.outOfRange n left)

/-- The next `n` bytes. -/
def take (n : Nat) : Reader Bytes := do
  atLeast n
  let start ← offset
  let stop ← add start n
  goTo stop
  slice start stop

/-- The next scalar of the given width. -/
def scalar (w : Width) : Reader UInt64 := do
  match scalarOfBytes (← take w.bytes) with
  | .ok n => return UInt64.ofNat n
  | .error e => fail e

/-- Refuses input that is left over. -/
def exhausted : Reader Unit := do
  let left ← remaining
  if left ≠ 0 then fail (.trailingData left)

/-- The outcome of a reader at a position, without the position. -/
def result {α : Type} (m : Reader α) (p : Position) : Except Stop α :=
  match m p with
  | .ok a _ => .ok a
  | .error stop _ => .error stop

/-- What a reader reads, where the number of bytes that it takes is worked out for a report. -/
def reported {α : Type} (read : Reader α) : Reader α := do
  let before ← offset
  let a ← read
  let _ ← sub (← offset) before
  return a

/-! ### Room for vectors -/

/-- How items of some type are kept in vectors. A vector has a capacity, which is the number of
items that it has room for. How large an item is and how fast a vector grows depends on the type
and on the compiler, so nothing is said of them here. -/
structure Storage where
  /-- The number of bytes that an item takes in a vector. -/
  itemSize : Nat
  /-- The capacity that a full vector is given when another item comes in. -/
  grown : Nat → Nat
  lt_grown (capacity : Nat) : capacity < grown capacity

namespace Storage

/-- A vector takes no more bytes than half a machine word can count. -/
def Fits (storage : Storage) (capacity : Nat) : Prop := capacity * storage.itemSize < 2 ^ 63

instance (storage : Storage) (capacity : Nat) : Decidable (storage.Fits capacity) :=
  inferInstanceAs (Decidable (_ < _))

/-- There is room for `n` items in a vector, and for it to grow when it is full. If items take no
bytes there always is. -/
def Ample (storage : Storage) (n : Nat) : Prop := ∀ k ≤ n, storage.Fits (storage.grown k)

/-- The capacities that are asked for when up to `n` items are put into a vector: no more than there
are items at the outset, and what a full vector of no more items grows to. -/
def Asks (storage : Storage) (n capacity : Nat) : Prop :=
  capacity ≤ n ∨ ∃ k ≤ n, storage.grown k = capacity

/-- There is no room for a vector of a capacity that up to `n` items may ask for. -/
def Lacks (storage : Storage) (n capacity : Nat) : Prop :=
  storage.Asks n capacity ∧ ¬storage.Fits capacity

theorem Ample.not_lacks {storage : Storage} {n : Nat} (h : storage.Ample n) (capacity : Nat) :
    ¬storage.Lacks n capacity := by
  rintro ⟨hle | ⟨k, hk, rfl⟩, hlacks⟩
  · have hgrown : capacity * storage.itemSize ≤ storage.grown capacity * storage.itemSize :=
      Nat.mul_le_mul_right _ (Nat.le_of_lt (storage.lt_grown capacity))
    exact hlacks (Nat.lt_of_le_of_lt hgrown (h capacity hle))
  · exact hlacks (h k hk)

/-- Capacities are doubled, from four on. -/
def doubling (itemSize : Nat) : Storage where
  itemSize := itemSize
  grown capacity := max (2 * capacity) 4
  lt_grown capacity := by omega

theorem ample_doubling {itemSize n : Nat} (h : max (2 * n) 4 * itemSize < 2 ^ 63) :
    (doubling itemSize).Ample n := by
  intro k hk
  have hle : max (2 * k) 4 ≤ max (2 * n) 4 := by omega
  exact Nat.lt_of_le_of_lt (Nat.mul_le_mul_right itemSize hle) h

/-- A vector of items of forty bytes can grow beyond the number of bytes in 64 pebibytes. -/
example : (doubling 40).Fits ((doubling 40).grown (2 ^ 56)) := by decide

end Storage

/-! ### Following a plain reader -/

/-- The position as a cursor of plain readers. -/
def Position.cursor (p : Position) : Cursor := ⟨p.offset, p.input.drop p.offset⟩

/-- The position lies in the input, which is less than half as long as a machine word can say. -/
structure Position.Valid (p : Position) : Prop where
  inside : p.offset ≤ p.input.length
  short : p.input.length < 2 ^ 63

/-- The outcome of a plain reader as one for positions in the whole input. -/
def outcome {α : Type} (input : Bytes) :
    EStateM.Result Error Cursor α → EStateM.Result Stop Position α
  | .ok a c => .ok a ⟨input, c.offset⟩
  | .error e c => .error (.fails e) ⟨input, c.offset⟩

/-- The outcome `x` is that of a plain reader, or there was no room for a vector that is kept in one
of the given ways, for as many items as the input has bytes, or fewer. -/
def Tracks {α : Type} (kept : Set Storage) (input : Bytes) (x : EStateM.Result Stop Position α)
    (y : EStateM.Result Error Cursor α) : Prop :=
  x = outcome input y ∨ ∃ storage ∈ kept, ∃ capacity p,
    x = .error (.noRoom capacity) p ∧ storage.Lacks input.length capacity

/-- The reader tracks a plain one wherever it starts. In particular nothing goes out of range but
the size of a vector. -/
def Follows {α : Type} (kept : Set Storage) (m : Reader α) (r : WireSchema.Reader α) : Prop :=
  ∀ p : Position, p.Valid → Tracks kept p.input (m p) (r p.cursor)

section Follows

variable {α β : Type} {kept : Set Storage} {m : Reader α} {r : WireSchema.Reader α}
  {g : α → Reader β} {f : α → WireSchema.Reader β} {p : Position} {c : Cursor} {bs : Bytes}
  {n : Nat}

theorem Position.Valid.remaining_eq (hp : p.Valid) :
    p.cursor.remaining + p.offset = p.input.length := by
  have := hp.inside
  show (p.input.drop p.offset).length + p.offset = p.input.length
  rw [List.length_drop]
  omega

/-- Where a plain reader moves on to is a position in the input, too. -/
theorem Position.Valid.passes (hp : p.Valid) (hc : p.cursor.Passes bs c) :
    (⟨p.input, c.offset⟩ : Position).Valid ∧
      (⟨p.input, c.offset⟩ : Position).cursor = c := by
  have hlength := hc.length_le
  have hoffset : c.offset = p.offset + bs.length := hc.offset
  have hremaining := hp.remaining_eq
  refine ⟨⟨?_, hp.short⟩, ?_⟩
  · show c.offset ≤ p.input.length
    have : p.cursor.rest.length = p.cursor.remaining := rfl
    omega
  · rw [hc.eq_mk]
    show Cursor.mk (p.offset + bs.length) (p.input.drop (p.offset + bs.length)) = _
    rw [← List.drop_drop]
    rfl

/-- What comes after a step is tracked if the step is: if it fails, nothing comes after it. -/
theorem Tracks.bind {y : EStateM.Result Error Cursor α} {z : EStateM.Result Error Cursor β}
    (h : Tracks kept p.input (m p) y) (herror : ∀ e c, y = .error e c → z = .error e c)
    (hok : ∀ a c, y = .ok a c → Tracks kept p.input (g a ⟨p.input, c.offset⟩) z) :
    Tracks kept p.input ((m >>= g) p) z := by
  rcases h with h | ⟨storage, hstorage, capacity, q, h, hlacks⟩
  · cases y with
    | error e c =>
      rw [herror e c rfl]
      exact .inl (Reader.bind_of_error h)
    | ok a c =>
      rw [Reader.bind_of_ok h]
      exact hok a c rfl
  · exact .inr ⟨storage, hstorage, capacity, q, Reader.bind_of_error h, hlacks⟩

/-- Where there is room for all vectors, the outcome is that of the plain reader. -/
theorem Tracks.eq {input : Bytes} {x : EStateM.Result Stop Position α}
    {y : EStateM.Result Error Cursor α} (h : Tracks kept input x y)
    (hkept : ∀ storage ∈ kept, storage.Ample input.length) : x = outcome input y := by
  rcases h with h | ⟨storage, hstorage, capacity, -, -, hlacks⟩
  · exact h
  · exact absurd hlacks ((hkept storage hstorage).not_lacks capacity)

theorem follows_pure (a : α) : Follows kept (pure a) (pure a) := fun _ _ => .inl rfl

theorem follows_fail (e : Error) : Follows kept (fail e : Reader α) (throw e) :=
  fun _ _ => .inl rfl

theorem Follows.bind (hm : Follows kept m r) (hr : r.Forward) (hf : ∀ a, Follows kept (g a) (f a)) :
    Follows kept (m >>= g) (r >>= f) := by
  intro p hp
  refine (hm p hp).bind (fun e c h => Reader.bind_of_error h) fun a c h => ?_
  obtain ⟨bs, hbs⟩ := hr.passes h
  obtain ⟨hvalid, hcursor⟩ := hp.passes hbs
  have hnext := hf a _ hvalid
  rw [Reader.bind_of_ok h]
  rwa [hcursor] at hnext

theorem Follows.map (hm : Follows kept m r) (hr : r.Forward) (h : α → β) :
    Follows kept (do return h (← m)) (do return h (← r)) :=
  hm.bind hr fun a => follows_pure (h a)

/-- A reader of a whole input has the outcome of a plain one, or there is no room for a vector. -/
theorem Follows.result_eq (hm : Follows kept m r) (hp : p.Valid) :
    result m p = (Reader.result r p.cursor).mapError .fails ∨
      ∃ storage ∈ kept, ∃ capacity, result m p = .error (.noRoom capacity) ∧
        storage.Lacks p.input.length capacity := by
  unfold result Reader.result
  rcases hm p hp with h | ⟨storage, hstorage, capacity, q, h, hlacks⟩
  · rw [h]
    left
    cases r p.cursor <;> rfl
  · rw [h]
    exact .inr ⟨storage, hstorage, capacity, rfl, hlacks⟩

/-! ### Operations that stay in range -/

theorem add_eq {k : Nat} (h : n + k < 2 ^ 64) : add n k p = .ok (n + k) p := by
  unfold add
  rw [if_pos h]
  rfl

theorem sub_eq {k : Nat} (h : k ≤ n) : sub n k p = .ok (n - k) p := by
  unfold sub
  rw [if_pos h]
  rfl

theorem offset_eq (p : Position) : offset p = .ok p.offset p := rfl

theorem remaining_eq (hp : p.Valid) : remaining p = .ok p.cursor.remaining p := by
  have hremaining := hp.remaining_eq
  have hdiff : p.input.length - p.offset = p.cursor.remaining := by omega
  unfold remaining
  rw [sub_eq hp.inside, hdiff]

theorem slice_eq {stop : Nat} (h : p.offset ≤ stop) (hstop : stop ≤ p.input.length) :
    slice p.offset stop ⟨p.input, stop⟩ =
      .ok (p.cursor.rest.take (stop - p.offset)) ⟨p.input, stop⟩ :=
  if_pos ⟨h, hstop⟩

theorem follows_atLeast (n : Nat) : Follows kept (atLeast n) (Reader.atLeast n) := by
  intro p hp
  left
  unfold atLeast Reader.atLeast
  rw [Reader.bind_of_ok (remaining_eq hp)]
  by_cases hn : n ≤ p.cursor.remaining
  · rw [if_pos hn, if_neg (Nat.not_lt.2 hn)]
    rfl
  · rw [if_neg hn, if_pos (Nat.lt_of_not_le hn)]
    rfl

/-- After the check the bytes are there, or there is nothing to come. -/
theorem tracks_atLeast {g : Unit → Reader β} {y : EStateM.Result Error Cursor β} (hp : p.Valid)
    (hover : p.cursor.remaining < n → y = .error (.outOfRange n p.cursor.remaining) p.cursor)
    (hg : n ≤ p.cursor.remaining → Tracks kept p.input (g () p) y) :
    Tracks kept p.input ((atLeast n >>= g) p) y := by
  refine (follows_atLeast n p hp).bind (fun e c h => ?_) fun _ c h => ?_
  · unfold Reader.atLeast at h
    split at h
    · cases h
    · next hn =>
      cases h
      exact hover (Nat.lt_of_not_le hn)
  · obtain ⟨hn, rfl⟩ := Reader.atLeast_eq_ok_iff.1 h
    exact hg hn

/-- With the bytes there, neither the sum nor the slice goes out of range. -/
theorem follows_take (n : Nat) : Follows kept (take n) (Reader.take n) := by
  intro p hp
  have hremaining := hp.remaining_eq
  have hshort := hp.short
  refine tracks_atLeast hp Reader.take_eq_error fun hn => ?_
  have hadd : add p.offset n p = .ok (p.offset + n) p := add_eq (by omega)
  have hgo : goTo (p.offset + n) p = .ok () ⟨p.input, p.offset + n⟩ := rfl
  left
  rw [Reader.take_eq_ok hn, Reader.bind_of_ok (offset_eq p), Reader.bind_of_ok hadd,
    Reader.bind_of_ok hgo, slice_eq (by omega) (by omega), Nat.add_sub_cancel_left]
  rfl

/-- What is taken for a scalar is never too long for one. -/
theorem follows_scalar (w : Width) : Follows kept (scalar w) (Reader.scalar w) := by
  intro p hp
  unfold scalar Reader.scalar
  refine (follows_take w.bytes p hp).bind (fun e c h => Reader.bind_of_error h) fun bs c h => ?_
  obtain ⟨hlength, -⟩ := Reader.take_eq_ok_iff.1 h
  have hscalar : scalarOfBytes bs = .ok (leValue bs) := if_pos (hlength ▸ w.bytes_le)
  rw [Reader.bind_of_ok h, hscalar]
  exact .inl rfl

theorem follows_exhausted : Follows kept exhausted Reader.exhausted := by
  intro p hp
  left
  unfold exhausted Reader.exhausted
  rw [Reader.bind_of_ok (remaining_eq hp)]
  cases h : p.cursor.rest with
  | nil =>
    rw [if_neg (by simp [Cursor.remaining, h])]
    rfl
  | cons b more =>
    rw [if_pos (by simp [Cursor.remaining, h])]
    rfl

/-- A reader that only moves on can be reported. -/
theorem Follows.reported (hm : Follows kept m r) (hr : r.Forward) :
    Follows kept (reported m) r := by
  intro p hp
  unfold Checked.reported
  rw [Reader.bind_of_ok (offset_eq p)]
  refine (hm p hp).bind (fun e c h => h) fun a c h => ?_
  obtain ⟨bs, hbs⟩ := hr.passes h
  have hmoved : c.offset = p.offset + bs.length := hbs.offset
  have hsub : sub c.offset p.offset ⟨p.input, c.offset⟩ =
      .ok (c.offset - p.offset) ⟨p.input, c.offset⟩ := sub_eq (by omega)
  rw [Reader.bind_of_ok (offset_eq _), Reader.bind_of_ok hsub, h]
  exact .inl rfl

end Follows

end Checked

end WireSchema
