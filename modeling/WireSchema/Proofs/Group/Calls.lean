import WireSchema.Proofs.Grouping

/-!
# Calls of the reader of items

Both readers of groups are one loop: while the group goes on, the reader of items is called once
more, and what it reads has to take a byte. Only the test at the head of the loop differs, which
looks at the number of items or at the bytes that they took. `Group.Loop` is this loop without any
bound on the calls, and counts them.

* `Group.Loop.unique`: how a loop ends, and after how many calls, is determined by where it begins.
* `Group.Loop.calls_le`: as every item takes a byte, there is at most one call more than there are
  bytes.
* `Group.exists_loop_counted`, `Group.exists_loop_budgeted`: the loops end, and as `Group.counted`
  and `Group.budgeted` do.
* `Group.counted_iff_budgeted`: the two readers accept the same runs of items.
-/

namespace WireSchema

namespace Group

variable {α : Type}

/-- What is to be done about a group of which some items are read. -/
inductive Next where
  /-- The group is complete. -/
  | stop
  /-- The group is refused. -/
  | refuse (e : Error)
  /-- One more item has to be read. -/
  | call

/-- A group of `n` items is complete when there are as many items. -/
def nextCounted (n : Nat) (items : List α) (_ : Cursor) : Next :=
  if items.length = n then .stop else .call

/-- A group of `budget` bytes that begins at `start` is complete where as many bytes are taken, and
refused beyond. -/
def nextBudgeted (budget start : Nat) (_ : List α) (c : Cursor) : Next :=
  if c.offset - start = budget then .stop
  else if budget < c.offset - start then
    .refuse (.malformed (.overshoot (c.offset - start) budget))
  else .call

/-- From some items and a position, the loop ends after the given number of calls with the given
outcome. -/
inductive Loop (read : Reader α) (next : List α → Cursor → Next) (empty : Malformation) :
    List α → Cursor → (calls : Nat) → EStateM.Result Error Cursor (List α) → Prop
  | stop {items : List α} {c : Cursor} : next items c = .stop →
    Loop read next empty items c 0 (.ok items c)
  | refuse {items : List α} {c : Cursor} {e : Error} : next items c = .refuse e →
    Loop read next empty items c 0 (.error e c)
  | fail {items : List α} {c c' : Cursor} {e : Error} : next items c = .call →
    read c = .error e c' → Loop read next empty items c 1 (.error e c')
  | empty {items : List α} {c c' : Cursor} {a : α} : next items c = .call →
    read c = .ok a c' → c'.offset = c.offset →
      Loop read next empty items c 1 (.error (.malformed empty) c')
  | more {items : List α} {c c' : Cursor} {a : α} {calls : Nat}
      {out : EStateM.Result Error Cursor (List α)} : next items c = .call →
    read c = .ok a c' → c'.offset ≠ c.offset → Loop read next empty (items ++ [a]) c' calls out →
      Loop read next empty items c (calls + 1) out

namespace Loop

variable {read : Reader α} {next : List α → Cursor → Next} {empty : Malformation}
  {items : List α} {c : Cursor} {calls calls' : Nat}
  {out out' : EStateM.Result Error Cursor (List α)}

/-- A loop ends in one way only. -/
theorem unique (h : Loop read next empty items c calls out)
    (h' : Loop read next empty items c calls' out') : calls = calls' ∧ out = out' := by
  induction h generalizing calls' with
  | stop hnext => cases h' <;> simp_all
  | refuse hnext => cases h' <;> simp_all
  | fail hnext hread => cases h' <;> simp_all
  | empty hnext hread hsame => cases h' <;> simp_all
  | more hnext hread hne _ ih =>
    cases h' with
    | stop hnext' => simp_all
    | refuse hnext' => simp_all
    | fail _ hread' => simp_all
    | empty _ hread' hsame => simp_all
    | more _ hread' _ hrest =>
      rw [hread] at hread'
      cases hread'
      obtain ⟨rfl, rfl⟩ := ih hrest
      exact ⟨rfl, rfl⟩

/-- Each call but the last one takes a byte of what is left. -/
theorem calls_le (h : Loop read next empty items c calls out) (hread : Reader.Advances read) :
    calls ≤ c.remaining + 1 := by
  induction h with
  | stop _ => exact Nat.zero_le _
  | refuse _ => exact Nat.zero_le _
  | fail _ _ => exact Nat.le_add_left _ _
  | empty _ _ _ => exact Nat.le_add_left _ _
  | @more items c c' a calls out _ hok hne _ ih =>
    obtain ⟨bs, hbs⟩ := hread c a c' hok
    have hpos := List.length_pos_iff.2 (hbs.offset_ne_iff.1 hne)
    have hlength := hbs.length
    unfold Cursor.remaining at ih ⊢
    omega

end Loop

/-! ### The loops end -/

section Loops

variable {read : Reader α} {budget start calls used count : Nat} {done : List α} {c : Cursor}

/-- The loop over a number of items makes no more calls than there are items. -/
theorem exists_loop_countedFrom (read : Reader α) {n k : Nat} (done : List α) (c : Cursor)
    (hk : done.length + k = n) :
    ∃ calls ≤ k, Loop read (nextCounted n) .emptyCountedItem done.reverse c calls
      (countedFrom read k done c) := by
  induction k generalizing done c with
  | zero =>
    have hnext : nextCounted n done.reverse c = .stop := if_pos (by simpa using hk)
    exact ⟨0, Nat.le_refl 0, .stop hnext⟩
  | succ k ih =>
    have hnext : nextCounted n done.reverse c = .call :=
      if_neg (by rw [List.length_reverse]; omega)
    unfold countedFrom
    cases hr : read c with
    | error e c' => exact ⟨1, Nat.le_add_left _ _, .fail hnext hr⟩
    | ok a c' =>
      dsimp only
      split
      · next hsame => exact ⟨1, Nat.le_add_left _ _, .empty hnext hr hsame⟩
      · next hne =>
        obtain ⟨calls, hcalls, hloop⟩ := ih (a :: done) c' (by rw [List.length_cons]; omega)
        rw [List.reverse_cons] at hloop
        exact ⟨calls + 1, Nat.succ_le_succ hcalls, .more hnext hr hne hloop⟩

theorem nextBudgeted_eq (budget : Nat) (hused : c.offset = start + used) (items : List α) :
    nextBudgeted budget start items c =
      if used = budget then .stop
      else if budget < used then .refuse (.malformed (.overshoot used budget))
      else .call := by
  have hconsumed : c.offset - start = used := by omega
  unfold nextBudgeted
  rw [hconsumed]

/-- Where the budget is used up, or more than that, nothing more is read. -/
theorem loop_budgetedFrom_of_le (hused : c.offset = start + used) (hle : budget ≤ used) :
    Loop read (nextBudgeted budget start) .emptyBudgetedItem done.reverse c 0
      (budgetedFrom (fun _ => read) budget calls used count done c) := by
  have hnext := nextBudgeted_eq budget hused done.reverse
  by_cases hend : used = budget
  · rw [if_pos hend] at hnext
    rw [budgetedFrom_end hend]
    exact .stop hnext
  · have hover : budget < used := by omega
    rw [if_neg hend, if_pos hover] at hnext
    rw [budgetedFrom_over hover]
    exact .refuse hnext

/-- The loop over a budget makes no more calls than there are bytes of the budget left, so the bound
on the calls of `budgetedFrom` is never reached. -/
theorem exists_loop_budgetedFrom (hread : Reader.Advances read) (used count : Nat) (done : List α)
    (c : Cursor) (hused : c.offset = start + used) (hcalls : budget ≤ used + calls) :
    ∃ n ≤ budget - used, Loop read (nextBudgeted budget start) .emptyBudgetedItem done.reverse c n
      (budgetedFrom (fun _ => read) budget calls used count done c) := by
  induction calls generalizing used count done c with
  | zero => exact ⟨0, Nat.zero_le _, loop_budgetedFrom_of_le hused hcalls⟩
  | succ calls ih =>
    by_cases hle : budget ≤ used
    · exact ⟨0, Nat.zero_le _, loop_budgetedFrom_of_le hused hle⟩
    have hend : used ≠ budget := by omega
    have hover : ¬budget < used := by omega
    have hnext := nextBudgeted_eq budget hused done.reverse
    rw [if_neg hend, if_neg hover] at hnext
    rw [budgetedFrom_succ hend hover]
    cases hr : read c with
    | error e c' => exact ⟨1, by omega, .fail hnext hr⟩
    | ok a c' =>
      dsimp only
      split
      · next hsame => exact ⟨1, by omega, .empty hnext hr hsame⟩
      · next hne =>
        obtain ⟨bs, hbs⟩ := hread c a c' hr
        have hpos := List.length_pos_iff.2 (hbs.offset_ne_iff.1 hne)
        have hoffset := hbs.offset
        obtain ⟨n, hn, hloop⟩ := ih (used + (c'.offset - c.offset)) (count + 1) (a :: done) c'
          (by omega) (by omega)
        rw [List.reverse_cons] at hloop
        exact ⟨n + 1, by omega, .more hnext hr hne hloop⟩

end Loops

/-! ### The readers -/

/-- The reading of a group of `n` items that makes so many calls of the reader of items. -/
def CountedIn (read : Reader α) (n : Nat) (c : Cursor) (calls : Nat)
    (out : EStateM.Result Error Cursor (List α)) : Prop :=
  Loop read (nextCounted n) .emptyCountedItem [] c calls out

/-- The reading of a group of `budget` bytes that makes so many calls of the reader of items: none
if there are not as many bytes. -/
def BudgetedIn (read : Reader α) (budget : Nat) (c : Cursor) (calls : Nat)
    (out : EStateM.Result Error Cursor (List α)) : Prop :=
  if budget ≤ c.remaining then
    Loop read (nextBudgeted budget c.offset) .emptyBudgetedItem [] c calls out
  else calls = 0 ∧ out = .error (.outOfRange budget c.remaining) c

section Readers

variable {read : Reader α} {budget n : Nat} {c : Cursor}

theorem BudgetedIn.unique {calls calls' : Nat} {out out' : EStateM.Result Error Cursor (List α)}
    (h : BudgetedIn read budget c calls out) (h' : BudgetedIn read budget c calls' out') :
    calls = calls' ∧ out = out' := by
  unfold BudgetedIn at h h'
  split at h
  · next hle =>
    rw [if_pos hle] at h'
    exact h.unique h'
  · next hlt =>
    rw [if_neg hlt] at h'
    exact ⟨h.1.trans h'.1.symm, h.2.trans h'.2.symm⟩

/-- A budget that is not there is refused at once. -/
theorem budgeted_of_lt (read : Reader α) (h : c.remaining < budget) :
    budgeted read budget c = .error (.outOfRange budget c.remaining) c :=
  Reader.bind_of_error (if_neg (Nat.not_le_of_lt h))

theorem budgeted_of_le (read : Reader α) (h : budget ≤ c.remaining) :
    budgeted read budget c = budgetedFrom (fun _ => read) budget budget 0 0 [] c :=
  Reader.bind_of_ok (if_pos h)

theorem exists_countedIn (read : Reader α) (n : Nat) (c : Cursor) :
    ∃ calls ≤ n, CountedIn read n c calls (counted read n c) :=
  exists_loop_countedFrom read [] c (Nat.zero_add n)

theorem exists_budgetedIn (hread : Reader.Advances read) (budget : Nat) (c : Cursor) :
    ∃ calls ≤ budget, BudgetedIn read budget c calls (budgeted read budget c) := by
  unfold BudgetedIn
  split
  · next hle =>
    rw [budgeted_of_le read hle]
    exact exists_loop_budgetedFrom hread 0 0 [] c rfl (by omega)
  · next hlt =>
    exact ⟨0, Nat.zero_le _, rfl, budgeted_of_lt read (Nat.lt_of_not_le hlt)⟩

/-- A run passes over the bytes of its items. -/
theorem Run.passes {read : Nat → Reader α} {k : Nat} {c' : Cursor} {items : List α}
    (h : Run read k c items c') (hread : ∀ k, Reader.Advances (read k)) :
    ∃ bs, c.Passes bs c' := by
  induction h with
  | nil => exact ⟨[], .refl _⟩
  | @cons k c c₁ c' a items ha _ _ ih =>
    obtain ⟨bs, hbs⟩ := hread k c a c₁ ha
    obtain ⟨cs, hcs⟩ := ih
    exact ⟨bs ++ cs, hbs.trans hcs⟩

/-- Items that are read by their number are read by their bytes, and the other way round. -/
theorem counted_iff_budgeted (hread : Reader.Advances read) {items : List α} {c' : Cursor} :
    counted read n c = .ok items c' ∧ c'.offset = c.offset + budget ↔
      budgeted read budget c = .ok items c' ∧ items.length = n := by
  rw [counted_eq_ok_iff, budgeted, budgetedWith_eq_ok_iff fun _ => hread]
  constructor
  · rintro ⟨⟨hlength, hrun⟩, hoffset⟩
    obtain ⟨bs, hbs⟩ := hrun.passes fun _ => hread
    have hbudget : bs.length = budget := by
      have := hbs.offset
      omega
    exact ⟨⟨hbudget ▸ hbs.length_le, hrun, hoffset⟩, hlength⟩
  · rintro ⟨⟨-, hrun, hoffset⟩, hlength⟩
    exact ⟨⟨hlength, hrun⟩, hoffset⟩

/-- Whatever a reader of items does that only moves on where it succeeds: reading by bytes ends
after no more calls than the budget has bytes, takes nothing where the budget is not there, and
exactly the budget where it succeeds; reading by number ends after one call more than there are
bytes, if not before, and its items are as many as they should be and at least as many bytes; and
the two accept the same runs of items. -/
theorem readers_agree (hread : Reader.Advances read) (c : Cursor) (n budget : Nat) :
    (∃ calls ≤ budget, ∀ calls' out, BudgetedIn read budget c calls' out ↔
      calls' = calls ∧ out = budgeted read budget c) ∧
    (c.remaining < budget →
      budgeted read budget c = .error (.outOfRange budget c.remaining) c ∧
        BudgetedIn read budget c 0 (budgeted read budget c)) ∧
    (∀ items c', budgeted read budget c = .ok items c' → c'.offset = c.offset + budget) ∧
    (∃ calls ≤ min n (c.remaining + 1), ∀ calls' out, CountedIn read n c calls' out ↔
      calls' = calls ∧ out = counted read n c) ∧
    (∀ items c', counted read n c = .ok items c' →
      items.length = n ∧ c.offset + n ≤ c'.offset) ∧
    ∀ items c', counted read n c = .ok items c' ∧ c'.offset = c.offset + budget ↔
      budgeted read budget c = .ok items c' ∧ items.length = n := by
  refine ⟨?_, ?_, ?_, ?_, ?_, fun items c' => counted_iff_budgeted hread⟩
  · obtain ⟨calls, hcalls, h⟩ := exists_budgetedIn hread budget c
    refine ⟨calls, hcalls, fun calls' out => ⟨fun h' => h'.unique h, ?_⟩⟩
    rintro ⟨rfl, rfl⟩
    exact h
  · intro hlt
    have hrefused := budgeted_of_lt read hlt
    refine ⟨hrefused, ?_⟩
    unfold BudgetedIn
    rw [if_neg (Nat.not_le_of_lt hlt)]
    exact ⟨rfl, hrefused⟩
  · intro items c' h
    exact ((budgetedWith_eq_ok_iff fun _ => hread).1 h).2.2
  · obtain ⟨calls, hcalls, h⟩ := exists_countedIn read n c
    refine ⟨calls, Nat.le_min.2 ⟨hcalls, h.calls_le hread⟩,
      fun calls' out => ⟨fun h' => h'.unique h, ?_⟩⟩
    rintro ⟨rfl, rfl⟩
    exact h
  · intro items c' h
    obtain ⟨rfl, hrun⟩ := counted_eq_ok_iff.1 h
    exact ⟨rfl, hrun.length_le fun _ => hread⟩

end Readers

end Group

/-- A byte string with its length in front of it, as one byte. -/
def Reader.lengthPrefixed : Reader Bytes := do
  let n ← scalar .one
  take n.toNat

theorem Reader.advances_lengthPrefixed : Advances lengthPrefixed :=
  (forward_bind (forward_scalar .one) fun n => forward_take n.toNat).advances

/-- Three byte strings that take six bytes of seven. -/
theorem Group.readers_agree_lengthPrefixed :
    Reader.Advances Reader.lengthPrefixed ∧
      counted Reader.lengthPrefixed 3 (.start [1, 7, 0, 2, 8, 9, 5]) =
        .ok [[7], [], [8, 9]] ⟨6, [5]⟩ ∧
      budgeted Reader.lengthPrefixed 6 (.start [1, 7, 0, 2, 8, 9, 5]) =
        .ok [[7], [], [8, 9]] ⟨6, [5]⟩ ∧
      budgeted Reader.lengthPrefixed 8 (.start [1, 7, 0, 2, 8, 9, 5]) =
        .error (.outOfRange 8 7) (.start [1, 7, 0, 2, 8, 9, 5]) := by
  have hcounted : counted Reader.lengthPrefixed 3 (.start [1, 7, 0, 2, 8, 9, 5]) =
      .ok [[7], [], [8, 9]] ⟨6, [5]⟩ := by rfl
  obtain ⟨-, -, -, -, -, hsame⟩ := readers_agree Reader.advances_lengthPrefixed
    (.start [1, 7, 0, 2, 8, 9, 5]) 3 6
  obtain ⟨-, hshort, -⟩ := readers_agree Reader.advances_lengthPrefixed
    (.start [1, 7, 0, 2, 8, 9, 5]) 3 8
  exact ⟨Reader.advances_lengthPrefixed, hcounted, ((hsame _ _).1 ⟨hcounted, rfl⟩).1,
    (hshort (by decide)).1⟩

end WireSchema
