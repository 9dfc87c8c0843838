import WireSchema.Proofs.Cursor.Position
import WireSchema.Proofs.Grouping

/-!
# Groups in vectors

The items of a group are put into a vector while they are read. For a count, room is made for all of
them at once, but for no more than there are bytes left: a count that was read from the input, or
that a schema declares, can be as large as a machine word, and no vector has that many items. For a
budget the vector is empty at first, and grows. As every item takes a byte, in either case no vector
is asked to hold more items than the input has bytes.

* `Checked.Vec`: a vector, and what is done with it.
* `Checked.counted` and `Checked.budgetedWith`: the readers of groups.
* `Checked.follows_counted` and `Checked.follows_budgetedWith`: they follow those without vectors.
-/

namespace WireSchema

namespace Checked

/-! ### Vectors -/

/-- A vector that items are put into. -/
structure Vec (α : Type) where
  /-- The items so far, in reverse. -/
  items : List α
  capacity : Nat
  length_le : items.length ≤ capacity

/-- Makes room for a vector. -/
def reserve (storage : Storage) (capacity : Nat) : Reader Unit :=
  if storage.Fits capacity then pure () else throw (.noRoom capacity)

namespace Vec

variable {α : Type}

/-- A vector for which no room is made yet. -/
def empty : Vec α := ⟨[], 0, Nat.le_refl _⟩

/-- An empty vector with room for as many items as its capacity. -/
def withCapacity (storage : Storage) (capacity : Nat) : Reader (Vec α) := do
  reserve storage capacity
  return ⟨[], capacity, Nat.zero_le _⟩

/-- Puts an item into a vector, which has to grow if it is full. -/
def push (storage : Storage) (v : Vec α) (a : α) : Reader (Vec α) :=
  if h : v.items.length < v.capacity then return ⟨a :: v.items, v.capacity, h⟩
  else do
    reserve storage (storage.grown v.capacity)
    return ⟨a :: v.items, storage.grown v.capacity,
      Nat.lt_of_le_of_lt v.length_le (storage.lt_grown v.capacity)⟩

end Vec

/-! ### Readers of groups -/

/-- Reads an item and puts it into a vector. If the item took no byte, it is refused with `e`. -/
def readItem {α : Type} (storage : Storage) (read : Reader α) (e : Error) (v : Vec α) :
    Reader (Vec α) := do
  let before ← offset
  let item ← read
  let v ← v.push storage item
  if (← offset) = before then fail e else return v

/-- Reads `n` more items after those in the vector. -/
def countedFrom {α : Type} (storage : Storage) (read : Reader α) :
    (n : Nat) → Vec α → Reader (List α)
  | 0, v => return v.items.reverse
  | n + 1, v => do
    let v ← readItem storage read (.malformed .emptyCountedItem) v
    countedFrom storage read n v

/-- Reads exactly `n` items. Room is made for no more of them than there are bytes left. -/
def counted {α : Type} (storage : Storage) (read : Reader α) (n : Nat) : Reader (List α) := do
  let left ← remaining
  let v ← Vec.withCapacity storage (min n left)
  countedFrom storage read n v

/-- Reads items until `budget` bytes after the offset `start` are used up. The reader of an item is
told how many items came before it. There is no bound on the number of items; to go on after `calls`
of them would be an operation out of range. -/
def budgetedFrom {α : Type} (storage : Storage) (read : Nat → Reader α) (budget start : Nat) :
    (calls count : Nat) → Vec α → Reader (List α)
  | calls, count, v => do
    let consumed ← sub (← offset) start
    if consumed = budget then return v.items.reverse
    else if budget < consumed then fail (.malformed (.overshoot consumed budget))
    else
      match calls with
      | 0 => throw .panics
      | calls + 1 =>
        let v ← readItem storage (read count) (.malformed .emptyBudgetedItem) v
        budgetedFrom storage read budget start calls (count + 1) v

/-- Reads items until exactly `budget` bytes are used up. -/
def budgetedWith {α : Type} (storage : Storage) (read : Nat → Reader α) (budget : Nat) :
    Reader (List α) := do
  let left ← remaining
  if budget ≤ left then budgetedFrom storage read budget (← offset) budget 0 .empty
  else fail (.outOfRange budget left)

/-! ### Room for the items -/

section Room

variable {α β : Type} {kept : Set Storage} {storage : Storage} (hkept : storage ∈ kept)
  {p : Position} {y : EStateM.Result Error Cursor β}
include hkept

/-- What comes after room is made for some items that the input has bytes for is tracked if it is
where there is room. -/
theorem tracks_reserve {g : Unit → Reader β} {capacity : Nat}
    (hasks : storage.Asks p.input.length capacity) (hg : Tracks kept p.input (g () p) y) :
    Tracks kept p.input ((reserve storage capacity >>= g) p) y := by
  unfold reserve
  by_cases hfits : storage.Fits capacity
  · rw [if_pos hfits]
    exact hg
  · rw [if_neg hfits]
    exact .inr ⟨storage, hkept, capacity, p, rfl, hasks, hfits⟩

theorem tracks_withCapacity {g : Vec α → Reader β} {capacity : Nat}
    (hle : capacity ≤ p.input.length)
    (hg : ∀ v : Vec α, v.items = [] → Tracks kept p.input (g v p) y) :
    Tracks kept p.input ((Vec.withCapacity storage capacity >>= g) p) y := by
  unfold Vec.withCapacity
  rw [bind_assoc]
  refine tracks_reserve hkept (.inl hle) ?_
  rw [pure_bind]
  exact hg _ rfl

theorem tracks_push {g : Vec α → Reader β} {v : Vec α} {a : α}
    (hv : v.items.length ≤ p.input.length)
    (hg : ∀ v' : Vec α, v'.items = a :: v.items → Tracks kept p.input (g v' p) y) :
    Tracks kept p.input ((v.push storage a >>= g) p) y := by
  unfold Vec.push
  split
  · rw [pure_bind]
    exact hg _ rfl
  · next hfull =>
    -- a full vector has as many items as its capacity
    have hcapacity : v.capacity ≤ p.input.length := Nat.le_trans (Nat.le_of_not_lt hfull) hv
    rw [bind_assoc]
    refine tracks_reserve hkept (.inr ⟨v.capacity, hcapacity, rfl⟩) ?_
    rw [pure_bind]
    exact hg _ rfl

/-- What comes after an item is tracked if the item is. There are no more items than bytes before
the position, and as the item takes a byte, so it is after it. -/
theorem tracks_readItem {m : Reader α} {r : WireSchema.Reader α} {g : Vec α → Reader β} {e : Error}
    {v : Vec α} (hm : Tracks kept p.input (m p) (r p.cursor)) (hr : r.Forward) (hp : p.Valid)
    (hv : v.items.length ≤ p.offset)
    (herror : ∀ e' c, r p.cursor = .error e' c → y = .error e' c)
    (hempty : ∀ a c, r p.cursor = .ok a c → c.offset = p.offset → y = .error e c)
    (hg : ∀ a q (v' : Vec α), r p.cursor = .ok a q.cursor → q.input = p.input → q.Valid →
      p.offset < q.offset → v'.items = a :: v.items → v'.items.length ≤ q.offset →
        Tracks kept p.input (g v' q) y) :
    Tracks kept p.input ((readItem storage m e v >>= g) p) y := by
  unfold readItem
  simp only [bind_assoc]
  rw [Reader.bind_of_ok (offset_eq p)]
  refine hm.bind herror fun a c h => ?_
  obtain ⟨bs, hbs⟩ := hr.passes h
  obtain ⟨hvalid, hcursor⟩ := hp.passes hbs
  have hmoved : c.offset = p.offset + bs.length := hbs.offset
  have hinside : v.items.length ≤ p.input.length := Nat.le_trans hv hp.inside
  refine tracks_push hkept (p := ⟨p.input, c.offset⟩) hinside fun v' hitems => ?_
  rw [Reader.bind_of_ok (offset_eq _)]
  by_cases hsame : c.offset = p.offset
  · rw [if_pos hsame, hempty a c h hsame]
    exact .inl rfl
  · have hlength : v'.items.length ≤ c.offset := by
      rw [hitems, List.length_cons]
      omega
    have hlater : p.offset < c.offset := by omega
    rw [if_neg hsame, pure_bind]
    exact hg a _ v' (hcursor.symm ▸ h) rfl hvalid hlater hitems hlength

end Room

/-! ### Following the readers without vectors -/

section Groups

variable {α : Type} {kept : Set Storage} {storage : Storage} (hkept : storage ∈ kept) {p : Position}
include hkept

theorem tracks_countedFrom {m : Reader α} {r : WireSchema.Reader α} (hm : Follows kept m r)
    (hr : r.Forward) (n : Nat) {v : Vec α} (hp : p.Valid) (hv : v.items.length ≤ p.offset) :
    Tracks kept p.input (countedFrom storage m n v p)
      (Group.countedFrom r n v.items p.cursor) := by
  induction n generalizing v p with
  | zero => exact .inl rfl
  | succ n ih =>
    unfold countedFrom Group.countedFrom
    refine tracks_readItem hkept (hm p hp) hr hp hv (fun e' c h => by rw [h])
      (fun a c h hsame => ?_) fun a q v' h hinput hvalid hlater hitems hlength => ?_
    · simp only [h]
      exact if_pos hsame
    · have hmoved : q.cursor.offset ≠ p.cursor.offset := Nat.ne_of_gt hlater
      simp only [h, if_neg hmoved]
      rw [← hitems, ← hinput]
      exact ih hvalid hlength

theorem follows_counted {m : Reader α} {r : WireSchema.Reader α} (hm : Follows kept m r)
    (hr : r.Forward) (n : Nat) : Follows kept (counted storage m n) (Group.counted r n) := by
  intro p hp
  have hremaining := hp.remaining_eq
  unfold counted
  rw [Reader.bind_of_ok (remaining_eq hp)]
  refine tracks_withCapacity hkept (by omega) fun v hitems => ?_
  have htracks := tracks_countedFrom hkept hm hr n (v := v) hp (by simp [hitems])
  rwa [hitems] at htracks

/-- As every item takes a byte, no more items than bytes come before another one, and there is a
call left for it as long as the budget is not used up. -/
theorem tracks_budgetedFrom {m : Nat → Reader α} {r : Nat → WireSchema.Reader α}
    (hm : ∀ k < 2 ^ 63, Follows kept (m k) (r k)) (hr : ∀ k, (r k).Forward) {budget start : Nat}
    {calls count : Nat} {v : Vec α} (hp : p.Valid) (hstart : start ≤ p.offset)
    (hcount : count ≤ p.offset - start) (hv : v.items.length ≤ p.offset)
    (hbudget : start + budget ≤ p.input.length) (hcalls : budget ≤ p.offset - start + calls) :
    Tracks kept p.input (budgetedFrom storage m budget start calls count v p)
      (Group.budgetedFrom r budget calls (p.offset - start) count v.items p.cursor) := by
  induction calls generalizing count v p with
  | zero =>
    unfold budgetedFrom Group.budgetedFrom
    rw [Reader.bind_of_ok (offset_eq p), Reader.bind_of_ok (sub_eq hstart)]
    by_cases hused : p.offset - start = budget
    · simp only [if_pos hused]
      exact .inl rfl
    · have hover : budget < p.offset - start := by omega
      simp only [if_neg hused, if_pos hover]
      exact .inl rfl
  | succ calls ih =>
    unfold budgetedFrom
    rw [Reader.bind_of_ok (offset_eq p), Reader.bind_of_ok (sub_eq hstart)]
    by_cases hused : p.offset - start = budget
    · rw [Group.budgetedFrom_end hused]
      simp only [if_pos hused]
      exact .inl rfl
    by_cases hover : budget < p.offset - start
    · rw [Group.budgetedFrom_over hover]
      simp only [if_neg hused, if_pos hover]
      exact .inl rfl
    rw [Group.budgetedFrom_succ hused hover]
    simp only [if_neg hused, if_neg hover]
    have hread : Follows kept (m count) (r count) := by
      have hshort := hp.short
      have hinside := hp.inside
      exact hm count (by omega)
    refine tracks_readItem hkept (hread p hp) (hr count) hp hv (fun e' c h => by rw [h])
      (fun a c h hsame => ?_) fun a q v' h hinput hvalid hlater hitems hlength => ?_
    · simp only [h]
      exact if_pos hsame
    · have hmoved : q.cursor.offset ≠ p.cursor.offset := Nat.ne_of_gt hlater
      have hused : p.offset - start + (q.cursor.offset - p.cursor.offset) = q.offset - start := by
        show p.offset - start + (q.offset - p.offset) = q.offset - start
        omega
      simp only [h, if_neg hmoved]
      rw [← hitems, ← hinput, hused]
      exact ih hvalid (by omega) (by omega) hlength (hinput ▸ hbudget) (by omega)

theorem follows_budgetedWith {m : Nat → Reader α} {r : Nat → WireSchema.Reader α}
    (hm : ∀ k < 2 ^ 63, Follows kept (m k) (r k)) (hr : ∀ k, (r k).Forward) (budget : Nat) :
    Follows kept (budgetedWith storage m budget) (Group.budgetedWith r budget) := by
  intro p hp
  have hremaining := hp.remaining_eq
  unfold budgetedWith Group.budgetedWith
  rw [Reader.bind_of_ok (remaining_eq hp)]
  by_cases hbudget : budget ≤ p.cursor.remaining
  · have hleast : Reader.atLeast budget p.cursor = .ok () p.cursor := if_pos hbudget
    have hinside : p.offset + budget ≤ p.input.length := by omega
    have htracks := tracks_budgetedFrom hkept hm hr (v := .empty) hp (Nat.le_refl _)
      (Nat.zero_le _) (Nat.zero_le _) hinside (Nat.le_add_left _ _)
    rw [Nat.sub_self] at htracks
    rw [if_pos hbudget, Reader.bind_of_ok (offset_eq p), Reader.bind_of_ok hleast]
    exact htracks
  · have hleast : Reader.atLeast budget p.cursor =
        .error (.outOfRange budget p.cursor.remaining) p.cursor := if_neg hbudget
    rw [if_neg hbudget, Reader.bind_of_error hleast]
    exact .inl rfl

end Groups

end Checked

end WireSchema
