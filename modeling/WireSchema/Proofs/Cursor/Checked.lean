import WireSchema.Proofs.Group.Vectors
import WireSchema.Proofs.Script

/-!
# Scripts with machine words

With machine words there are two ways to the next bytes: the offset is moved on and the bytes are
cut out between the two offsets, or all that is left is cut out, and the offset is moved on by a
call that stops where it would pass the end. Typed words are read in the second way. A script can
ask for either, and to carry it out with machine words is to read what its reader reads.

* `Script.run`: a script carried out with machine words.
* `Script.follows`: it follows the reader of the script, so nothing but the size of a vector ever
  goes out of range.
-/

namespace WireSchema

namespace Checked

/-! ### What is left -/

/-- All bytes after the position. -/
def chunk : Reader Bytes := fun p => slice p.offset p.input.length p

/-- Moves on by `n` bytes, which must be there. -/
def advance (n : Nat) : Reader Unit := do
  let left ← remaining
  if n ≤ left then goTo (← add (← offset) n) else throw .panics

/-- The next `n` bytes, cut out of what is left before they are passed over. -/
def get (n : Nat) : Reader Bytes := do
  atLeast n
  let left ← chunk
  if n ≤ left.length then
    advance n
    return left.take n
  else throw .panics

section Follows

variable {kept : Set Storage} {p : Position}

theorem chunk_eq (hp : p.Valid) : chunk p = .ok p.cursor.rest p := by
  have hall : (p.input.drop p.offset).take (p.input.length - p.offset) = p.input.drop p.offset :=
    List.take_of_length_le (Nat.le_of_eq List.length_drop)
  unfold chunk slice
  rw [if_pos ⟨hp.inside, Nat.le_refl _⟩, hall]
  rfl

theorem advance_of_le {n : Nat} (hp : p.Valid) (h : n ≤ p.cursor.remaining) :
    advance n p = .ok () ⟨p.input, p.offset + n⟩ := by
  have hremaining := hp.remaining_eq
  have hshort := hp.short
  unfold advance
  rw [Reader.bind_of_ok (remaining_eq hp), if_pos h, Reader.bind_of_ok (offset_eq p),
    Reader.bind_of_ok (add_eq (by omega))]
  rfl

theorem advance_of_lt {n : Nat} (hp : p.Valid) (h : p.cursor.remaining < n) :
    advance n p = .error .panics p := by
  unfold advance
  rw [Reader.bind_of_ok (remaining_eq hp), if_neg (Nat.not_le_of_lt h)]
  rfl

/-- With the bytes there, neither the cut nor the move goes out of range. -/
theorem follows_get (n : Nat) : Follows kept (get n) (Reader.take n) := by
  intro p hp
  refine tracks_atLeast hp Reader.take_eq_error fun hn => ?_
  have hleft : n ≤ p.cursor.rest.length := hn
  left
  refine (Reader.bind_of_ok (chunk_eq hp)).trans ?_
  rw [if_pos hleft]
  refine (Reader.bind_of_ok (advance_of_le hp hn)).trans ?_
  rw [Reader.take_eq_ok hn]
  rfl

/-- Where there is room for vectors of items of all types, a reader has the outcome of the plain one
that it follows. -/
theorem Follows.eq_of_ample {α : Type} {storage : Type → Storage} {m : Reader α}
    {r : WireSchema.Reader α} (hm : Follows (Set.range storage) m r) (hp : p.Valid)
    (hroom : ∀ β, (storage β).Ample p.input.length) : m p = outcome p.input (r p.cursor) := by
  refine (hm p hp).eq ?_
  rintro _ ⟨β, rfl⟩
  exact hroom β

end Follows

end Checked

/-! ### Scripts -/

/-- What a script does with machine words, where items of each type are kept as `storage` says. -/
def Script.run (storage : Type → Checked.Storage) : {α : Type} → Script α → Checked.Reader α
  | _, .pure a => return a
  | _, .throw e => Checked.fail e
  | _, .bind s next => s.run storage >>= fun a => (next a).run storage
  | _, .take n => Checked.take n
  | _, .get n => Checked.get n
  | _, @Script.counted α item n => Checked.counted (storage α) (item.run storage) n
  | _, @Script.budgeted α item budget =>
    Checked.budgetedWith (storage α) (fun k => (item k).run storage) budget

/-- A script that is carried out with machine words follows its reader: it fails where the reader
does, and nothing but the size of a vector is ever out of range. -/
theorem Script.follows (storage : Type → Checked.Storage) {α : Type} (s : Script α) :
    Checked.Follows (Set.range storage) (s.run storage) s.reader := by
  have hforward : ∀ {β : Type} (s : Script β), s.reader.Forward := fun s =>
    s.elim Reader.compositional_forward
  have hkept : ∀ β, storage β ∈ Set.range storage := Set.mem_range_self
  induction s with
  | pure a => exact Checked.follows_pure a
  | throw e => exact Checked.follows_fail e
  | bind s next ihs ihnext => exact ihs.bind (hforward s) ihnext
  | take n => exact Checked.follows_take n
  | get n => exact Checked.follows_get n
  | counted item n ih => exact Checked.follows_counted (hkept _) ih (hforward item) n
  | budgeted item budget ih =>
    exact Checked.follows_budgetedWith (hkept _) (fun k _ => ih k) (fun k => hforward (item k))
      budget

end WireSchema
