import WireSchema.Group
import WireSchema.Proofs.Reading

/-!
# What the readers of groups do

Both readers of groups take items one after the other, each of them at least a byte long; they
differ only in where they stop. `Group.Run` is what they have in common.

* `Group.counted_eq_ok_iff` and `Group.budgetedWith_eq_ok_iff`: a group is read where such a run has
  the right number of items, or ends at the right place.
* `Group.Run.chunks`: the bytes of a run fall into those of its items.
* `Group.reads_counted` and `Group.reads_budgetedWith`: a group is read from the bytes of its items,
  put one after the other.
-/

namespace WireSchema

namespace Group

variable {α : Type}

/-- The items that a reader takes from one position to another, each of them at least a byte long.
The reader of an item is told how many items came before it. -/
inductive Run (read : Nat → Reader α) : (before : Nat) → Cursor → List α → Cursor → Prop
  | nil {k : Nat} {c : Cursor} : Run read k c [] c
  | cons {k : Nat} {c c₁ c' : Cursor} {a : α} {items : List α} :
    read k c = .ok a c₁ → c₁.offset ≠ c.offset → Run read (k + 1) c₁ items c' →
      Run read k c (a :: items) c'

namespace Run

variable {read : Nat → Reader α} {k : Nat} {c c' : Cursor} {items : List α}

/-- A run only moves on, by a byte for each item. -/
theorem length_le (h : Run read k c items c') (hread : ∀ k, Reader.Advances (read k)) :
    c.offset + items.length ≤ c'.offset := by
  induction h with
  | nil => exact Nat.le_refl _
  | @cons k c c₁ c' a items ha hne _ ih =>
    obtain ⟨bs, hbs⟩ := hread _ _ _ _ ha
    have := hbs.offset
    rw [List.length_cons]
    omega

/-- A reader that takes no account of the items before it does not see where a run begins. -/
theorem const {read : Reader α} (h : Run (fun _ => read) k c items c') (j : Nat) :
    Run (fun _ => read) j c items c' := by
  induction h generalizing j with
  | nil => exact .nil
  | cons ha hne _ ih => exact .cons ha hne (ih (j + 1))

/-- What is known of every item that is read is known of the items of a run. -/
theorem forall_mem {P : α → Prop} (h : Run read k c items c')
    (hread : ∀ k a c c', read k c = .ok a c' → P a) : ∀ a ∈ items, P a := by
  induction h with
  | nil =>
    intro a ha
    cases ha
  | cons ha _ _ ih => exact List.forall_mem_cons.2 ⟨hread _ _ _ _ ha, ih⟩

/-- The bytes of a run are those of its items, one after the other. What is known of an item that is
read with fewer than `bound` bytes left is known of all of them. -/
theorem chunks {P : α → Bytes → Prop} {bound : Nat} (h : Run read k c items c')
    (hread : ∀ k a c c', c.rest.length < bound → read k c = .ok a c' →
      ∃ bs, c.Passes bs c' ∧ P a bs)
    (hc : c.rest.length < bound) :
    ∃ chunks, List.Forall₂ (fun a bs => P a bs ∧ bs ≠ []) items chunks ∧
      c.Passes chunks.flatten c' := by
  induction h with
  | nil => exact ⟨[], .nil, .refl _⟩
  | @cons k c c₁ c' a items ha hne _ ih =>
    obtain ⟨bs, hbs, hP⟩ := hread k a c c₁ hc ha
    have hc₁ : c₁.rest.length < bound := Nat.lt_of_le_of_lt hbs.rest_length_le hc
    obtain ⟨chunks, hchunks, hpass⟩ := ih hc₁
    refine ⟨bs :: chunks, .cons ⟨hP, hbs.offset_ne_iff.1 hne⟩ hchunks, ?_⟩
    rw [List.flatten_cons]
    exact hbs.trans hpass

/-- Items are read one after the other from their bytes. -/
theorem of_reads {chunks : List Bytes} {bound : Nat}
    (h : List.Forall₂ (fun a bs => bs ≠ [] ∧ ∀ k < bound, Reader.Reads (read k) bs a) items chunks)
    (hk : k + items.length ≤ bound) (hc : c.Passes chunks.flatten c') :
    Run read k c items c' := by
  induction h generalizing k c with
  | nil =>
    rw [List.flatten_nil] at hc
    rw [hc.eq_self]
    exact .nil
  | @cons a bs items chunks ha _ ih =>
    obtain ⟨hne, hread⟩ := ha
    rw [List.length_cons] at hk
    rw [List.flatten_cons] at hc
    obtain ⟨c₁, h₁, h₂⟩ := hc.split
    exact .cons (hread k (by omega) c c₁ h₁) (h₁.offset_ne_iff.2 hne) (ih (by omega) h₂)

end Run

/-! ### Groups of a given number of items -/

theorem counted_eq_ok_iff {read : Reader α} {n : Nat} {c c' : Cursor} {items : List α} :
    counted read n c = .ok items c' ↔ items.length = n ∧ Run (fun _ => read) 0 c items c' := by
  induction n generalizing c items with
  | zero =>
    rw [counted_zero, List.length_eq_zero_iff]
    constructor
    · intro h
      cases h
      exact ⟨rfl, .nil⟩
    · rintro ⟨rfl, h⟩
      cases h
      rfl
  | succ n ih =>
    rw [counted_succ]
    constructor
    · intro h
      cases hr : read c with
      | error e c₁ => simp [hr] at h
      | ok a c₁ =>
        simp only [hr] at h
        split at h
        · cases h
        · next hne =>
          cases hg : counted read n c₁ with
          | error e c₂ => simp [hg] at h
          | ok as c₂ =>
            simp only [hg] at h
            cases h
            obtain ⟨hlen, hrun⟩ := ih.1 hg
            exact ⟨by rw [List.length_cons, hlen], .cons hr hne (hrun.const 1)⟩
    · rintro ⟨hlen, hrun⟩
      cases hrun with
      | nil => cases hlen
      | @cons _ _ c₁ _ a as ha hne hrest =>
        rw [List.length_cons, Nat.add_right_cancel_iff] at hlen
        simp only [ha, if_neg hne, ih.2 ⟨hlen, hrest.const 0⟩]

theorem forward_countedFrom {read : Reader α} (h : Reader.Forward read) (n : Nat)
    (done : List α) : Reader.Forward (countedFrom read n done) := by
  induction n generalizing done with
  | zero => exact Reader.forward_pure done.reverse
  | succ n ih =>
    intro c
    obtain ⟨bs, hbs⟩ := h c
    cases hr : read c with
    | error e c₁ =>
      have heq : countedFrom read (n + 1) done c = .error e c₁ := by simp [countedFrom, hr]
      rw [Reader.final_of_error heq, ← Reader.final_of_error hr]
      exact ⟨bs, hbs⟩
    | ok a c₁ =>
      rw [Reader.final_of_ok hr] at hbs
      by_cases hsame : c₁.offset = c.offset
      · have heq : countedFrom read (n + 1) done c =
            .error (.malformed .emptyCountedItem) c₁ := by simp [countedFrom, hr, hsame]
        rw [Reader.final_of_error heq]
        exact ⟨bs, hbs⟩
      · have heq : countedFrom read (n + 1) done c = countedFrom read n (a :: done) c₁ := by
          simp [countedFrom, hr, hsame]
        obtain ⟨cs, hcs⟩ := ih (a :: done) c₁
        refine ⟨bs ++ cs, ?_⟩
        rw [Reader.final, heq]
        exact hbs.trans hcs

theorem forward_counted {read : Reader α} (h : Reader.Forward read) (n : Nat) :
    Reader.Forward (counted read n) :=
  forward_countedFrom h n []

/-- A group with a given number of items is read from the bytes of its items. -/
theorem reads_counted {read : Reader α} {items : List α} {chunks : List Bytes}
    (h : List.Forall₂ (fun a bs => bs ≠ [] ∧ Reader.Reads read bs a) items chunks) :
    Reader.Reads (counted read items.length) chunks.flatten items := by
  intro c c' hc
  have hitems : List.Forall₂
      (fun a bs => bs ≠ [] ∧ ∀ k < items.length, Reader.Reads read bs a) items chunks :=
    h.imp fun a bs hab => ⟨hab.1, fun k _ => hab.2⟩
  exact counted_eq_ok_iff.2 ⟨rfl, Run.of_reads hitems (by omega) hc⟩

/-! ### Groups of a given number of bytes -/

section Budgeted

variable {read : Nat → Reader α} {budget calls used count : Nat} {done items : List α}
  {c c' : Cursor}

theorem budgetedFrom_end (hused : used = budget) :
    budgetedFrom read budget calls used count done c = .ok done.reverse c := by
  unfold budgetedFrom
  simp only [if_pos hused]

theorem budgetedFrom_over (hover : budget < used) :
    budgetedFrom read budget calls used count done c =
      .error (.malformed (.overshoot used budget)) c := by
  unfold budgetedFrom
  simp only [if_neg (Nat.ne_of_gt hover), if_pos hover]

/-- While the budget is not used up, one more item is read. -/
theorem budgetedFrom_succ (hused : used ≠ budget) (hover : ¬budget < used) :
    budgetedFrom read budget (calls + 1) used count done c =
      match read count c with
      | .error e c' => .error e c'
      | .ok item c' =>
        if c'.offset = c.offset then .error (.malformed .emptyBudgetedItem) c'
        else
          budgetedFrom read budget calls (used + (c'.offset - c.offset)) (count + 1)
            (item :: done) c' := by
  conv_lhs => unfold budgetedFrom
  exact (if_neg hused).trans (if_neg hover)

theorem run_of_budgetedFrom (hread : ∀ k, Reader.Advances (read k))
    (h : budgetedFrom read budget calls used count done c = .ok items c') :
    ∃ more, items = done.reverse ++ more ∧ Run read count c more c' ∧
      c'.offset + used = c.offset + budget := by
  induction calls generalizing used count done c with
  | zero =>
    unfold budgetedFrom at h
    split at h
    · next hused =>
      cases h
      exact ⟨[], by rw [List.append_nil], .nil, by rw [hused]⟩
    · split at h <;> cases h
  | succ calls ih =>
    by_cases hused : used = budget
    · rw [budgetedFrom_end hused] at h
      cases h
      exact ⟨[], by rw [List.append_nil], .nil, by rw [hused]⟩
    by_cases hover : budget < used
    · rw [budgetedFrom_over hover] at h
      cases h
    rw [budgetedFrom_succ hused hover] at h
    cases hr : read count c with
    | error e c₁ => simp [hr] at h
    | ok a c₁ =>
      simp only [hr] at h
      split at h
      · cases h
      · next hne =>
        obtain ⟨more, hmore, hrun, hoffset⟩ := ih h
        obtain ⟨bs, hbs⟩ := hread _ _ _ _ hr
        have := hbs.offset
        refine ⟨a :: more, ?_, .cons hr hne hrun, by omega⟩
        rw [hmore, List.reverse_cons, List.append_assoc, List.singleton_append]

/-- A run that ends where the budget does is read to its end, as no item is empty. -/
theorem budgetedFrom_of_run (hread : ∀ k, Reader.Advances (read k)) (h : Run read count c items c')
    (hoffset : c'.offset + used = c.offset + budget) (hcalls : budget ≤ used + calls) :
    budgetedFrom read budget calls used count done c = .ok (done.reverse ++ items) c' := by
  induction h generalizing used done calls with
  | nil =>
    rw [budgetedFrom_end (by omega), List.append_nil]
  | @cons k c c₁ c' a items ha hne hrest ih =>
    obtain ⟨bs, hbs⟩ := hread _ _ _ _ ha
    have hfirst := hbs.offset
    have hlast := hrest.length_le hread
    -- the item takes a byte of the budget, so there is a call left for it
    obtain ⟨calls, rfl⟩ : ∃ n, calls = n + 1 := Nat.exists_eq_add_one.2 (by omega)
    rw [budgetedFrom_succ (by omega) (by omega)]
    simp only [ha, if_neg hne]
    rw [ih (by omega) (by omega), List.reverse_cons, List.append_assoc, List.singleton_append]

theorem budgetedWith_eq_ok_iff (hread : ∀ k, Reader.Advances (read k)) :
    budgetedWith read budget c = .ok items c' ↔
      budget ≤ c.remaining ∧ Run read 0 c items c' ∧ c'.offset = c.offset + budget := by
  unfold budgetedWith
  rw [Reader.bind_eq_ok_iff]
  constructor
  · rintro ⟨_, c₁, hleast, h⟩
    obtain ⟨hbudget, rfl⟩ := Reader.atLeast_eq_ok_iff.1 hleast
    obtain ⟨more, hmore, hrun, hoffset⟩ := run_of_budgetedFrom hread h
    have : items = more := hmore
    subst this
    exact ⟨hbudget, hrun, hoffset⟩
  · rintro ⟨hbudget, hrun, hoffset⟩
    refine ⟨(), c, Reader.atLeast_eq_ok_iff.2 ⟨hbudget, rfl⟩, ?_⟩
    exact budgetedFrom_of_run hread hrun hoffset (by omega)

/-- Items are read one after the other from their bytes up to where the budget is used up. -/
theorem budgetedFrom_of_reads {chunks : List Bytes} {bound : Nat}
    (h : List.Forall₂ (fun a bs => bs ≠ [] ∧ ∀ k < bound, Reader.Reads (read k) bs a) items chunks)
    (hcount : count + items.length ≤ bound) (hused : used + chunks.flatten.length = budget)
    (hcalls : budget ≤ used + calls) (hc : c.Passes chunks.flatten c') :
    budgetedFrom read budget calls used count done c = .ok (done.reverse ++ items) c' := by
  induction h generalizing count used calls done c with
  | nil =>
    rw [List.flatten_nil] at hc hused
    have hend : used = budget := hused
    rw [budgetedFrom_end hend, List.append_nil, hc.eq_self]
  | @cons a bs items chunks ha _ ih =>
    obtain ⟨hne, hreads⟩ := ha
    rw [List.length_cons] at hcount
    rw [List.flatten_cons] at hc
    rw [List.flatten_cons, List.length_append] at hused
    obtain ⟨c₁, h₁, h₂⟩ := hc.split
    have hpos := List.length_pos_iff.2 hne
    have hoffset := h₁.offset
    obtain ⟨calls, rfl⟩ : ∃ n, calls = n + 1 := Nat.exists_eq_add_one.2 (by omega)
    rw [budgetedFrom_succ (by omega) (by omega)]
    simp only [hreads count (by omega) c c₁ h₁, if_neg (h₁.offset_ne_iff.2 hne)]
    rw [ih (by omega) (by omega) (by omega) h₂, List.reverse_cons, List.append_assoc,
      List.singleton_append]

theorem forward_budgetedFrom (hread : ∀ k, Reader.Forward (read k)) (calls used count : Nat)
    (done : List α) : Reader.Forward (budgetedFrom read budget calls used count done) := by
  induction calls generalizing used count done with
  | zero =>
    intro c
    refine ⟨[], ?_⟩
    have hfinal : Reader.final (budgetedFrom read budget 0 used count done) c = c := by
      rw [Reader.final, budgetedFrom]
      split_ifs <;> rfl
    rw [hfinal]
    exact .refl c
  | succ calls ih =>
    intro c
    by_cases hused : used = budget
    · rw [Reader.final_of_ok (budgetedFrom_end hused)]
      exact ⟨[], .refl c⟩
    by_cases hover : budget < used
    · rw [Reader.final_of_error (budgetedFrom_over hover)]
      exact ⟨[], .refl c⟩
    have heq := @budgetedFrom_succ _ read budget calls used count done c hused hover
    obtain ⟨bs, hbs⟩ := hread count c
    cases hr : read count c with
    | error e c₁ =>
      simp only [hr] at heq
      rw [Reader.final_of_error heq, ← Reader.final_of_error hr]
      exact ⟨bs, hbs⟩
    | ok a c₁ =>
      rw [Reader.final_of_ok hr] at hbs
      simp only [hr] at heq
      split at heq
      · rw [Reader.final_of_error heq]
        exact ⟨bs, hbs⟩
      · obtain ⟨cs, hcs⟩ := ih (used + (c₁.offset - c.offset)) (count + 1) (a :: done) c₁
        refine ⟨bs ++ cs, ?_⟩
        rw [Reader.final, heq]
        exact hbs.trans hcs

theorem forward_budgetedWith (hread : ∀ k, Reader.Forward (read k)) (budget : Nat) :
    Reader.Forward (budgetedWith read budget) :=
  Reader.forward_bind (Reader.forward_atLeast budget) fun _ =>
    forward_budgetedFrom hread budget 0 0 []

end Budgeted

/-- Items that each take a byte are no more than their bytes. -/
theorem length_le_flatten {items : List α} {chunks : List Bytes}
    (h : List.Forall₂ (fun _ bs => bs ≠ []) items chunks) :
    items.length ≤ chunks.flatten.length := by
  induction h with
  | nil => exact Nat.le_refl _
  | @cons a bs items chunks hbs _ ih =>
    have hpos : 0 < bs.length := List.length_pos_iff.2 hbs
    rw [List.length_cons, List.flatten_cons, List.length_append]
    omega

/-- A group with a given number of bytes is read from the bytes of its items. -/
theorem reads_budgetedWith {read : Nat → Reader α} {items : List α} {chunks : List Bytes}
    {bound : Nat}
    (h : List.Forall₂ (fun a bs => bs ≠ [] ∧ ∀ k < bound, Reader.Reads (read k) bs a) items chunks)
    (hbound : chunks.flatten.length ≤ bound) :
    Reader.Reads (budgetedWith read chunks.flatten.length) chunks.flatten items := by
  intro c c' hc
  have hcount : items.length ≤ chunks.flatten.length :=
    length_le_flatten (h.imp fun a bs hab => hab.1)
  refine Reader.bind_eq_ok_iff.2 ⟨(), c, Reader.atLeast_eq_ok_iff.2 ⟨hc.length_le, rfl⟩, ?_⟩
  exact budgetedFrom_of_reads h (by omega) (Nat.zero_add _) (by omega) hc

/-! ### Images of items -/

section Map

variable {β : Type} {read : Reader α} (g : α → β)

theorem counted_map (n : Nat) (c : Cursor) :
    counted (read >>= fun a => pure (g a)) n c =
      match counted read n c with
      | .ok items c' => .ok (items.map g) c'
      | .error e c' => .error e c' := by
  induction n generalizing c with
  | zero => rfl
  | succ n ih =>
    rw [counted_succ, counted_succ]
    cases hr : read c with
    | error e c₁ => simp [bind, EStateM.bind, hr]
    | ok a c₁ =>
      have hmap : (read >>= fun a => pure (g a)) c = .ok (g a) c₁ := by
        simp [bind, EStateM.bind, hr, pure, EStateM.pure]
      simp only [hmap]
      split
      · rfl
      · rw [ih]
        cases counted read n c₁ <;> rfl

/-- As every item takes a byte, fewer items than the budget has bytes come before each of them. -/
theorem budgetedFrom_map (hread : Reader.Forward read) {image : Nat → Reader β} {budget : Nat}
    (himage : ∀ k < budget, image k = read >>= fun a => pure (g a)) {calls used count : Nat}
    (hcount : count ≤ used) (done : List α) (c : Cursor) :
    budgetedFrom image budget calls used count (done.map g) c =
      match budgetedFrom (fun _ => read) budget calls used count done c with
      | .ok items c' => .ok (items.map g) c'
      | .error e c' => .error e c' := by
  induction calls generalizing used count done c with
  | zero =>
    by_cases hused : used = budget
    · simp [budgetedFrom, hused]
    by_cases hover : budget < used
    · simp [budgetedFrom, hused, hover]
    · simp [budgetedFrom, hused, hover]
  | succ calls ih =>
    by_cases hused : used = budget
    · rw [budgetedFrom_end hused, budgetedFrom_end hused, ← List.map_reverse]
    by_cases hover : budget < used
    · rw [budgetedFrom_over hover, budgetedFrom_over hover]
    rw [budgetedFrom_succ hused hover, budgetedFrom_succ hused hover, himage count (by omega)]
    cases hr : read c with
    | error e c₁ => simp [bind, EStateM.bind, hr]
    | ok a c₁ =>
      have hmap : (read >>= fun a => pure (g a)) c = .ok (g a) c₁ := by
        simp [bind, EStateM.bind, hr, pure, EStateM.pure]
      obtain ⟨bs, hbs⟩ := hread.passes hr
      have hoffset := hbs.offset
      simp only [hmap]
      split
      · rfl
      · exact ih (by omega) (a :: done) c₁

theorem counted_map_eq (n : Nat) :
    counted (read >>= fun a => pure (g a)) n =
      counted read n >>= fun items => pure (items.map g) := by
  funext c
  rw [counted_map]
  simp only [bind, EStateM.bind]
  cases counted read n c <;> rfl

theorem budgetedWith_map_eq (hread : Reader.Forward read) {image : Nat → Reader β} {budget : Nat}
    (himage : ∀ k < budget, image k = read >>= fun a => pure (g a)) :
    budgetedWith image budget = budgeted read budget >>= fun items => pure (items.map g) := by
  funext c
  simp only [budgeted, budgetedWith, bind_assoc]
  refine congrFun (bind_congr fun _ => ?_) c
  funext c
  have hmap : budgetedFrom image budget budget 0 0 [] c =
      match budgetedFrom (fun _ => read) budget budget 0 0 [] c with
      | .ok items c' => .ok (items.map g) c'
      | .error e c' => .error e c' :=
    budgetedFrom_map g hread himage (Nat.le_refl 0) [] c
  rw [hmap]
  simp only [bind, EStateM.bind]
  cases budgetedFrom (fun _ => read) budget budget 0 0 [] c <;> rfl

end Map

end Group

end WireSchema
