import WireSchema.Proofs.Grouping

/-!
# Scripts of readers

Readers are put together from readers of bytes, one after another and in groups. What all these
ways of putting them together keep is true of all readers. A `Script` is a reader taken apart: it
says which bytes are read and what is done with them, and nothing of the cursor, so it can be
carried out on a cursor of any kind.

* `Reader.Compositional`: a property of readers that is kept by the ways of putting them together.
* `Script.reader`: a script carried out on a `Cursor`.
* `Reader.Scripted.elim`: a reader that has a script has all the properties that are kept.
-/

namespace WireSchema

/-! ### Properties of readers -/

/-- A property of readers that is kept by all the ways in which the readers of structures are put
together. -/
structure Reader.Compositional (P : ∀ {α : Type}, Reader α → Prop) : Prop where
  pure : ∀ {α : Type} (a : α), P (pure a)
  throw : ∀ {α : Type} (e : Error), P (throw e : Reader α)
  bind : ∀ {α β : Type} {r : Reader α} {f : α → Reader β}, P r → (∀ a, P (f a)) → P (r >>= f)
  take : ∀ n, P (Reader.take n)
  counted : ∀ {α : Type} {read : Reader α}, P read → ∀ n, P (Group.counted read n)
  budgetedWith : ∀ {α : Type} {read : Nat → Reader α}, (∀ k, P (read k)) →
    ∀ budget, P (Group.budgetedWith read budget)

namespace Reader

namespace Compositional

variable {P : ∀ {α : Type}, Reader α → Prop} (h : Compositional P)
include h

theorem map {α β : Type} {r : Reader α} (hr : P r) (g : α → β) : P (do return g (← r)) :=
  h.bind hr fun a => h.pure (g a)

theorem scalar (w : Width) : P (Reader.scalar w) := h.map (h.take w.bytes) _

end Compositional

theorem compositional_forward : Compositional @Forward where
  pure := forward_pure
  throw := forward_throw
  bind := forward_bind
  take := forward_take
  counted := Group.forward_counted
  budgetedWith := Group.forward_budgetedWith

end Reader

/-! ### Scripts -/

/-- A reader that is taken apart. -/
inductive Script : Type → Type 1 where
  | pure {α : Type} (a : α) : Script α
  | throw {α : Type} (e : Error) : Script α
  | bind {α β : Type} (s : Script α) (next : α → Script β) : Script β
  /-- The next `n` bytes, passed over and then cut out of the input. -/
  | take (n : Nat) : Script Bytes
  /-- The next `n` bytes, cut out of what is left and then passed over. -/
  | get (n : Nat) : Script Bytes
  | counted {α : Type} (item : Script α) (n : Nat) : Script (List α)
  /-- The script of an item is told how many items came before it. -/
  | budgeted {α : Type} (item : Nat → Script α) (budget : Nat) : Script (List α)

namespace Script

/-- What a script reads. On a cursor that holds what is left there is one way to take bytes. -/
def reader : {α : Type} → Script α → Reader α
  | _, .pure a => return a
  | _, .throw e => MonadExcept.throw e
  | _, .bind s next => s.reader >>= fun a => (next a).reader
  | _, .take n => Reader.take n
  | _, .get n => Reader.take n
  | _, .counted item n => Group.counted item.reader n
  | _, .budgeted item budget => Group.budgetedWith (fun k => (item k).reader) budget

theorem elim {P : ∀ {α : Type}, Reader α → Prop} (h : Reader.Compositional P) {α : Type}
    (s : Script α) : P s.reader := by
  induction s with
  | pure a => exact h.pure a
  | throw e => exact h.throw e
  | bind _ _ ihs ihnext => exact h.bind ihs ihnext
  | take n => exact h.take n
  | get n => exact h.take n
  | counted _ n ih => exact h.counted ih n
  | budgeted _ budget ih => exact h.budgetedWith ih budget

end Script

namespace Reader

/-- A reader that has a script. -/
def Scripted {α : Type} (r : Reader α) : Prop := ∃ s : Script α, s.reader = r

theorem compositional_scripted : Compositional @Scripted where
  pure a := ⟨.pure a, rfl⟩
  throw e := ⟨.throw e, rfl⟩
  bind := by
    rintro α β r f ⟨s, rfl⟩ hf
    choose next hnext using hf
    obtain rfl : (fun a => (next a).reader) = f := funext hnext
    exact ⟨.bind s next, rfl⟩
  take n := ⟨.take n, rfl⟩
  counted := by
    rintro α read ⟨s, rfl⟩ n
    exact ⟨.counted s n, rfl⟩
  budgetedWith := by
    intro α read hread budget
    choose item hitem using hread
    obtain rfl : (fun k => (item k).reader) = read := funext hitem
    exact ⟨.budgeted item budget, rfl⟩

theorem Scripted.elim {P : ∀ {α : Type}, Reader α → Prop} {α : Type} {r : Reader α}
    (hr : Scripted r) (h : Compositional P) : P r := by
  obtain ⟨s, rfl⟩ := hr
  exact s.elim h

end Reader

end WireSchema
