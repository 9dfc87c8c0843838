import WireSchema.Cursor
import Mathlib.Data.List.Forall2

/-!
# Computations that may fail

A computation that succeeds has taken every one of its steps. The lemmas here take a successful
computation apart into its steps, for computations on values (`Except`) and for readers.
-/

namespace WireSchema

/-- Steps that do the same for every item do the same for the whole list. -/
theorem mapM_congr {m : Type → Type} [Monad m] [LawfulMonad m] {α β : Type} {f g : α → m β}
    {xs : List α} (h : ∀ x ∈ xs, f x = g x) : xs.mapM f = xs.mapM g := by
  induction xs with
  | nil => rfl
  | cons x xs ih =>
    rw [List.mapM_cons, List.mapM_cons, h x List.mem_cons_self,
      ih fun y hy => h y (List.mem_cons_of_mem _ hy)]

theorem forM_congr {m : Type → Type} [Monad m] {α : Type} {f g : α → m PUnit} {xs : List α}
    (h : ∀ x ∈ xs, f x = g x) : xs.forM f = xs.forM g := by
  induction xs with
  | nil => rfl
  | cons x xs ih =>
    show (f x >>= fun _ => xs.forM f) = (g x >>= fun _ => xs.forM g)
    rw [h x List.mem_cons_self, ih fun y hy => h y (List.mem_cons_of_mem _ hy)]

theorem exists_mem_of_forall₂ {α β : Type} {R : α → β → Prop} {xs : List α} {ys : List β}
    (h : List.Forall₂ R xs ys) {x : α} (hx : x ∈ xs) : ∃ y ∈ ys, R x y := by
  induction h with
  | nil => cases hx
  | @cons a b xs ys hab _ ih =>
    rcases List.mem_cons.1 hx with rfl | hx
    · exact ⟨b, List.mem_cons_self, hab⟩
    · obtain ⟨y, hy, hxy⟩ := ih hx
      exact ⟨y, List.mem_cons_of_mem _ hy, hxy⟩

section Except

variable {ε α β : Type}

theorem bind_eq_ok_iff {x : Except ε α} {f : α → Except ε β} {b : β} :
    (x >>= f) = .ok b ↔ ∃ a, x = .ok a ∧ f a = .ok b := by
  cases x with
  | error e => simp [bind, Except.bind]
  | ok a => simp [bind, Except.bind]

theorem pure_eq_ok_iff {a b : α} : (pure a : Except ε α) = .ok b ↔ a = b := by
  simp [pure, Except.pure]

theorem bind_eq_error_iff {x : Except ε α} {f : α → Except ε β} {e : ε} :
    (x >>= f) = .error e ↔ x = .error e ∨ ∃ a, x = .ok a ∧ f a = .error e := by
  cases x with
  | error e' => simp [bind, Except.bind]
  | ok a => simp [bind, Except.bind]

/-- What each step of a fold preserves holds at its end. -/
theorem foldlM_preserves {P : β → Prop} {f : β → α → Except ε β} {xs : List α} {b b' : β}
    (step : ∀ x ∈ xs, ∀ b b', P b → f b x = .ok b' → P b')
    (h : xs.foldlM f b = .ok b') (hb : P b) : P b' := by
  induction xs generalizing b with
  | nil =>
    cases h
    exact hb
  | cons x xs ih =>
    rw [List.foldlM_cons] at h
    obtain ⟨b₁, h₁, h⟩ := bind_eq_ok_iff.1 h
    refine ih (fun y hy => step y (List.mem_cons_of_mem _ hy)) h ?_
    exact step x List.mem_cons_self b b₁ hb h₁

/-- A fold succeeds if each of its steps does, from any state that the steps before may leave. -/
theorem exists_foldlM_eq_ok {P : β → Prop} {f : β → α → Except ε β} {xs : List α} {b : β}
    (step : ∀ x ∈ xs, ∀ b, P b → ∃ b', f b x = .ok b' ∧ P b') (hb : P b) :
    ∃ b', xs.foldlM f b = .ok b' := by
  induction xs generalizing b with
  | nil => exact ⟨b, rfl⟩
  | cons x xs ih =>
    obtain ⟨b₁, h₁, hb₁⟩ := step x List.mem_cons_self b hb
    obtain ⟨b', h⟩ := ih (fun y hy => step y (List.mem_cons_of_mem _ hy)) hb₁
    refine ⟨b', ?_⟩
    rw [List.foldlM_cons]
    exact bind_eq_ok_iff.2 ⟨b₁, h₁, h⟩

/-- A fold that succeeds has taken a step for each item. -/
theorem exists_step_of_foldlM {f : β → α → Except ε β} {xs : List α} {b b' : β}
    (h : xs.foldlM f b = .ok b') {x : α} (hx : x ∈ xs) :
    ∃ before after c c', xs = before ++ x :: after ∧ before.foldlM f b = .ok c ∧
      f c x = .ok c' ∧ after.foldlM f c' = .ok b' := by
  obtain ⟨before, after, rfl⟩ := List.append_of_mem hx
  rw [List.foldlM_append] at h
  obtain ⟨c, hbefore, h⟩ := bind_eq_ok_iff.1 h
  rw [List.foldlM_cons] at h
  obtain ⟨c', hstep, hafter⟩ := bind_eq_ok_iff.1 h
  exact ⟨before, after, c, c', rfl, hbefore, hstep, hafter⟩

/-- Where a fold fails, one of its steps does, from a state that the steps before have left. -/
theorem exists_of_foldlM_eq_error {P : β → Prop} {f : β → α → Except ε β} {xs : List α} {b : β}
    {e : ε} (step : ∀ x ∈ xs, ∀ b b', P b → f b x = .ok b' → P b')
    (h : xs.foldlM f b = .error e) (hb : P b) : ∃ x ∈ xs, ∃ b', P b' ∧ f b' x = .error e := by
  induction xs generalizing b with
  | nil => cases h
  | cons x xs ih =>
    rw [List.foldlM_cons] at h
    rcases bind_eq_error_iff.1 h with h | ⟨b₁, h₁, h⟩
    · exact ⟨x, List.mem_cons_self, b, hb, h⟩
    · have hb₁ := step x List.mem_cons_self b b₁ hb h₁
      obtain ⟨y, hy, hstep⟩ := ih (fun y hy => step y (List.mem_cons_of_mem _ hy)) h hb₁
      exact ⟨y, List.mem_cons_of_mem _ hy, hstep⟩

theorem forM_eq_ok_iff {f : α → Except ε PUnit} {xs : List α} :
    xs.forM f = .ok () ↔ ∀ x ∈ xs, f x = .ok () := by
  induction xs with
  | nil => simp [pure, Except.pure]
  | cons x xs ih =>
    rw [List.forall_mem_cons, ← ih]
    refine bind_eq_ok_iff.trans ?_
    constructor
    · rintro ⟨_, hx, h⟩
      exact ⟨hx, h⟩
    · rintro ⟨hx, h⟩
      exact ⟨(), hx, h⟩

theorem mapM_eq_ok_iff {f : α → Except ε β} {xs : List α} {ys : List β} :
    xs.mapM f = .ok ys ↔ List.Forall₂ (fun x y => f x = .ok y) xs ys := by
  induction xs generalizing ys with
  | nil => simp [pure, Except.pure, eq_comm]
  | cons x xs ih =>
    rw [List.mapM_cons, bind_eq_ok_iff, List.forall₂_cons_left_iff]
    constructor
    · rintro ⟨y, hy, h⟩
      obtain ⟨ys', hys, h⟩ := bind_eq_ok_iff.1 h
      exact ⟨y, ys', hy, ih.1 hys, (pure_eq_ok_iff.1 h).symm⟩
    · rintro ⟨y, ys', hy, hys, rfl⟩
      exact ⟨y, hy, bind_eq_ok_iff.2 ⟨ys', ih.2 hys, rfl⟩⟩

theorem exists_mapM_eq_ok {f : α → Except ε β} {xs : List α} (h : ∀ x ∈ xs, ∃ y, f x = .ok y) :
    ∃ ys, xs.mapM f = .ok ys := by
  induction xs with
  | nil => exact ⟨[], rfl⟩
  | cons x xs ih =>
    obtain ⟨y, hy⟩ := h x List.mem_cons_self
    obtain ⟨ys, hys⟩ := ih fun z hz => h z (List.mem_cons_of_mem _ hz)
    exact ⟨y :: ys, mapM_eq_ok_iff.2 (.cons hy (mapM_eq_ok_iff.1 hys))⟩

/-- Where a list of steps fails, one of them does. -/
theorem exists_of_mapM_eq_error {f : α → Except ε β} {xs : List α} {e : ε}
    (h : xs.mapM f = .error e) : ∃ x ∈ xs, f x = .error e := by
  induction xs with
  | nil => cases h
  | cons x xs ih =>
    rw [List.mapM_cons] at h
    rcases bind_eq_error_iff.1 h with h | ⟨y, -, h⟩
    · exact ⟨x, List.mem_cons_self, h⟩
    · rcases bind_eq_error_iff.1 h with h | ⟨ys, -, h⟩
      · obtain ⟨z, hz, hstep⟩ := ih h
        exact ⟨z, List.mem_cons_of_mem _ hz, hstep⟩
      · cases h

theorem mapError_eq_ok_iff {ε' : Type} {x : Except ε α} {f : ε → ε'} {a : α} :
    x.mapError f = .ok a ↔ x = .ok a := by
  cases x <;> simp [Except.mapError]

end Except

section Option

variable {α β : Type}

theorem length_of_mapM_eq_some {f : α → Option β} {xs : List α} {ys : List β}
    (h : xs.mapM f = some ys) : ys.length = xs.length := by
  induction xs generalizing ys with
  | nil =>
    cases h
    rfl
  | cons x xs ih =>
    rw [List.mapM_cons] at h
    obtain ⟨y, -, h⟩ := Option.bind_eq_some_iff.1 h
    obtain ⟨ys', hys, h⟩ := Option.bind_eq_some_iff.1 h
    cases h
    rw [List.length_cons, List.length_cons, ih hys]

theorem lookup_eq_none_iff {members : List (String × β)} {name : String} :
    members.lookup name = none ↔ name ∉ members.map Prod.fst := by
  rw [List.lookup_eq_none_iff]
  constructor
  · intro h hmem
    obtain ⟨p, hp, rfl⟩ := List.mem_map.1 hmem
    simpa using h p hp
  · intro h p hp
    rw [bne_iff_ne]
    rintro rfl
    exact h (List.mem_map_of_mem hp)

theorem exists_lookup_eq_some {members : List (String × β)} {name : String}
    (h : name ∈ members.map Prod.fst) : ∃ v, members.lookup name = some v := by
  rw [← Option.ne_none_iff_exists', Ne, lookup_eq_none_iff, not_not]
  exact h

end Option

namespace Reader

variable {α β : Type}

theorem bind_eq_ok_iff {r : Reader α} {f : α → Reader β} {c c' : Cursor} {b : β} :
    (r >>= f) c = .ok b c' ↔ ∃ a c₁, r c = .ok a c₁ ∧ f a c₁ = .ok b c' := by
  simp only [bind, EStateM.bind]
  cases r c with
  | error e c₁ => simp
  | ok a c₁ => simp

theorem bind_of_error {ε σ : Type} {r : EStateM ε σ α} {f : α → EStateM ε σ β} {c c' : σ} {e : ε}
    (h : r c = .error e c') : (r >>= f) c = .error e c' := by
  simp only [bind, EStateM.bind, h]

theorem bind_of_ok {ε σ : Type} {r : EStateM ε σ α} {f : α → EStateM ε σ β} {c c' : σ} {a : α}
    (h : r c = .ok a c') : (r >>= f) c = f a c' := by
  simp only [bind, EStateM.bind, h]

/-- What comes after a step matters only where the step succeeds. -/
theorem bind_congr {r : Reader α} {f g : α → Reader β} {c : Cursor}
    (h : ∀ a c', r c = .ok a c' → f a c' = g a c') : (r >>= f) c = (r >>= g) c := by
  cases hr : r c with
  | error e c' => rw [bind_of_error hr, bind_of_error hr]
  | ok a c' => rw [bind_of_ok hr, bind_of_ok hr, h a c' hr]

theorem pure_eq_ok_iff {a b : α} {c c' : Cursor} :
    (pure a : Reader α) c = .ok b c' ↔ a = b ∧ c = c' := by
  simp [pure, EStateM.pure]

theorem throw_apply (e : Error) (c : Cursor) : (throw e : Reader α) c = .error e c := rfl

theorem map_eq_ok_iff {r : Reader α} {g : α → β} {c c' : Cursor} {b : β} :
    (do return g (← r) : Reader β) c = .ok b c' ↔ ∃ a, r c = .ok a c' ∧ g a = b := by
  rw [bind_eq_ok_iff]
  constructor
  · rintro ⟨a, c₁, hr, hp⟩
    obtain ⟨hb, rfl⟩ := pure_eq_ok_iff.1 hp
    exact ⟨a, hr, hb⟩
  · rintro ⟨a, hr, hb⟩
    exact ⟨a, c', hr, pure_eq_ok_iff.2 ⟨hb, rfl⟩⟩

end Reader

end WireSchema
