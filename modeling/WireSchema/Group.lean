import WireSchema.Cursor

/-!
# Groups of items

A group is a run of items with no frame of its own. It ends after a given number of items
(`Group.counted`), or where a given number of bytes, its budget, is used up (`Group.budgeted`).

Either reader refuses an item that takes no byte, so the number of items is bounded by the bytes
that are left, whatever the count or the budget claims. A budget must end exactly where an item
ends.
-/

namespace WireSchema

namespace Group

/-- Reads `n` more items after the given ones, which are held in reverse. -/
def countedFrom {α : Type} (read : Reader α) : (n : Nat) → List α → Reader (List α)
  | 0, done => fun c => .ok done.reverse c
  | n + 1, done => fun c =>
    match read c with
    | .error e c' => .error e c'
    | .ok item c' =>
      if c'.offset = c.offset then .error (.malformed .emptyCountedItem) c'
      else countedFrom read n (item :: done) c'

/-- Reads exactly `n` items. -/
def counted {α : Type} (read : Reader α) (n : Nat) : Reader (List α) :=
  countedFrom read n []

/-- Reads items until `budget` bytes are used up, of which `used` already are, by the `count` items
that are held in reverse. The reader of an item is told how many items came before it. The number
`calls` bounds how many items can follow. -/
def budgetedFrom {α : Type} (read : Nat → Reader α) (budget : Nat) :
    (calls used count : Nat) → List α → Reader (List α)
  | calls, used, count, done => fun c =>
    if used = budget then .ok done.reverse c
    else if budget < used then .error (.malformed (.overshoot used budget)) c
    else
      match calls with
      -- out of reach: every item before took a byte, so the budget is used up by now
      | 0 => .error (.malformed .emptyBudgetedItem) c
      | calls + 1 =>
        match read count c with
        | .error e c' => .error e c'
        | .ok item c' =>
          if c'.offset = c.offset then .error (.malformed .emptyBudgetedItem) c'
          else
            budgetedFrom read budget calls (used + (c'.offset - c.offset)) (count + 1)
              (item :: done) c'

/-- Reads items, each told how many came before it, until exactly `budget` bytes are used up. As
every item takes a byte, there are at most `budget` of them. -/
def budgetedWith {α : Type} (read : Nat → Reader α) (budget : Nat) : Reader (List α) := do
  Reader.atLeast budget
  budgetedFrom read budget budget 0 0 []

/-- Reads items until exactly `budget` bytes are used up. -/
def budgeted {α : Type} (read : Reader α) (budget : Nat) : Reader (List α) :=
  budgetedWith (fun _ => read) budget

/-- The encodings of the items, one after the other. -/
def write {α : Type} (write : α → Except Error Bytes) (items : List α) : Except Error Bytes := do
  return (← items.mapM write).flatten

section Lemmas

variable {α : Type} (read : Reader α)

@[simp] theorem counted_zero (c : Cursor) : counted read 0 c = .ok [] c := rfl

/-- The items that were read before come in front of those that follow. -/
theorem countedFrom_eq (n : Nat) (done : List α) (c : Cursor) :
    countedFrom read n done c =
      match counted read n c with
      | .ok items c' => .ok (done.reverse ++ items) c'
      | .error e c' => .error e c' := by
  induction n generalizing done c with
  | zero => simp [countedFrom]
  | succ n ih =>
    unfold counted countedFrom
    cases read c with
    | error e c' => rfl
    | ok item c' =>
      dsimp only
      split
      · rfl
      · rw [ih, ih [item]]
        cases counted read n c' <;> simp

/-- One item, then the others. -/
theorem counted_succ (n : Nat) (c : Cursor) :
    counted read (n + 1) c =
      match read c with
      | .error e c' => .error e c'
      | .ok item c' =>
        if c'.offset = c.offset then .error (.malformed .emptyCountedItem) c'
        else
          match counted read n c' with
          | .ok items c'' => .ok (item :: items) c''
          | .error e c'' => .error e c'' := by
  show countedFrom read (n + 1) [] c = _
  unfold countedFrom
  cases read c with
  | error e c' => rfl
  | ok item c' =>
    dsimp only
    rw [countedFrom_eq]
    rfl

@[simp] theorem write_nil (f : α → Except Error Bytes) : write f [] = pure [] := rfl

theorem write_cons (f : α → Except Error Bytes) (x : α) (xs : List α) :
    write f (x :: xs) = do
      let first ← f x
      let others ← write f xs
      return first ++ others := by
  simp only [write, List.mapM_cons]
  cases f x with
  | error e => rfl
  | ok first =>
    cases List.mapM f xs with
    | error e => rfl
    | ok others => rfl

end Lemmas

end Group

end WireSchema
