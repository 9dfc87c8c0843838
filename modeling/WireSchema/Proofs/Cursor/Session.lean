import Mathlib.Data.List.Chain
import WireSchema.Proofs.Codec.Delimited
import WireSchema.Proofs.Cursor.Checked
import WireSchema.Proofs.Transaction.Scripted

/-!
# Sessions on a cursor

A session is a sequence of steps on one cursor, of which any may fail without ending it: bytes,
numbers, typed structures, groups and structures of schemas are read, what is left is looked at, and
the cursor is moved on. Nothing but the bytes that a step passes over decides what it reads, and no
order of steps leads out of the input.

* `Query`: what can be read, and `Step`: what can be done.
* `Session.Disciplined`: what is said of the events of a session.
* `Session.disciplined`: all sessions are disciplined, with machine words as well as without.
-/

namespace WireSchema

open Checked (Position Stop)

/-! ### Positions in an input -/

/-- The cursor is a position in the input. -/
structure Cursor.Within (c : Cursor) (input : Bytes) : Prop where
  offset_le : c.offset ≤ input.length
  rest : c.rest = input.drop c.offset

namespace Cursor.Within

variable {c c' : Cursor} {input bs : Bytes}

theorem start (input : Bytes) : (Cursor.start input).Within input := ⟨Nat.zero_le _, rfl⟩

theorem remaining_eq (h : c.Within input) : c.remaining = input.length - c.offset := by
  rw [Cursor.remaining, h.rest, List.length_drop]

/-- The position after some bytes is in the same input. -/
theorem passes (h : c.Within input) (hpass : c.Passes bs c') : c'.Within input where
  offset_le := by
    have hle : bs.length ≤ c.remaining := hpass.length_le
    have := h.remaining_eq
    have := h.offset_le
    have := hpass.offset
    omega
  rest := by
    have hrest : input.drop c.offset = bs ++ c'.rest := h.rest.symm.trans hpass.rest
    rw [hpass.offset, ← List.drop_drop, hrest, List.drop_left]

/-- The bytes between two positions are those of the input between their offsets. -/
theorem bytes_eq (h : c.Within input) (hpass : c.Passes bs c') :
    bs = input.extract c.offset c'.offset := by
  have hrest : input.drop c.offset = bs ++ c'.rest := h.rest.symm.trans hpass.rest
  have hlength : c'.offset - c.offset = bs.length := by
    have := hpass.offset
    omega
  unfold List.extract
  rw [hrest, hlength, List.take_left]

/-- A position is determined by its offset. -/
theorem cursor_eq (h : c.Within input) : (⟨input, c.offset⟩ : Position).cursor = c := by
  unfold Position.cursor
  rw [← h.rest]

theorem valid (h : c.Within input) (hshort : input.length < 2 ^ 63) :
    (⟨input, c.offset⟩ : Position).Valid := ⟨h.offset_le, hshort⟩

end Cursor.Within

/-! ### Steps -/

/-- Something that is read from a cursor. -/
inductive Query : Type 1 where
  | bytes (n : Nat)
  | uint (w : Width)
  | array (n : Nat)
  | word (υ : Type) [Word υ] [LawfulWord υ]
  | typed (α : Type) [Wire α] [Wire.Scripted α]
  | counted {α : Type} (item : Reader α) (h : item.Scripted) (n : Nat)
  | budgeted {α : Type} (item : Reader α) (h : item.Scripted) (budget : Nat)
  | decode (schema : Schema) (limits : Limits) (name : String)

namespace Query

def Result : Query → Type
  | .bytes _ => Bytes
  | .uint _ => UInt64
  | .array n => Blob n
  | @word υ _ _ => υ
  | @typed α _ _ => α
  | @counted α _ _ _ => List α
  | @budgeted α _ _ _ => List α
  | .decode .. => Record

def reader : (q : Query) → Reader q.Result
  | .bytes n => Reader.take n
  | .uint w => Reader.scalar w
  | .array n => Blob.read n
  | @word υ _ _ => (Wire.read : Reader υ)
  | @typed α _ _ => (Wire.read : Reader α)
  | .counted item _ n => Group.counted item n
  | .budgeted item _ budget => Group.budgeted item budget
  | .decode schema limits name => schema.read limits name

/-- The queries that ask for a fixed number of bytes at once. -/
def primitive : Query → Bool
  | .bytes _ | .uint _ | .array _ | @word .. => true
  | _ => false

/-- The result of a primitive query is made of the bytes, or is their number, lowest byte first. -/
def Shows : (q : Query) → Bytes → q.Result → Prop
  | .bytes n, bs, a => bs.length = n ∧ a = bs
  | .uint w, bs, a => bs.length = w.bytes ∧ UInt64.toNat a = leValue bs
  | .array n, bs, a => bs.length = n ∧ Blob.data a = bs
  | @word υ _ _, bs, a => bs.length = (Word.width υ).bytes ∧ Word.toNat (α := υ) a = leValue bs
  | _, _, _ => True

theorem scripted (q : Query) : q.reader.Scripted := by
  have h := Reader.compositional_scripted
  cases q with
  | bytes n => exact h.take n
  | uint w => exact h.scalar w
  | array n => exact (Wire.Scripted.blob n).scripted_read
  | word υ => exact (Wire.Scripted.word υ).scripted_read
  | typed α => exact (Wire.Scripted.scripted_read : Reader.Scripted (Wire.read : Reader α))
  | counted item hitem n => exact h.counted hitem n
  | budgeted item hitem budget => exact h.budgetedWith (fun _ => hitem) budget
  | decode schema limits name => exact h.interpret limits schema.structures name

end Query

/-- Something that is done with a cursor. -/
inductive Step : Type 1 where
  | read (q : Query)
  | atLeast (n : Nat)
  | exhausted
  | chunk
  | advance (n : Nat)

namespace Step

def Result : Step → Type
  | .read q => q.Result
  | .atLeast _ => Unit
  | .exhausted => Unit
  | .chunk => Bytes
  | .advance _ => Unit

/-- What a reader does, which never panics. -/
def ofReader {α : Type} (r : Reader α) : EStateM Stop Cursor α := fun c =>
  match r c with
  | .ok a c' => .ok a c'
  | .error e c' => .error (.fails e) c'

/-- Moving on by `n` bytes, which must be there. -/
def moveOn (n : Nat) : EStateM Stop Cursor Unit := fun c =>
  match c.advance? n with
  | some c' => .ok () c'
  | none => .error .panics c

/-- What a step does with a cursor. -/
def run : (s : Step) → EStateM Stop Cursor s.Result
  | .read q => ofReader q.reader
  | .atLeast n => ofReader (Reader.atLeast n)
  | .exhausted => ofReader Reader.exhausted
  | .chunk => fun c => .ok c.rest c
  | .advance n => moveOn n

/-- What a step does with machine words, given the scripts of the queries, where the items of each
type are kept as `storage` says. -/
def checked (storage : Type → Checked.Storage) (scripts : (q : Query) → Script q.Result) :
    (s : Step) → Checked.Reader s.Result
  | .read q => (scripts q).run storage
  | .atLeast n => Checked.atLeast n
  | .exhausted => Checked.exhausted
  | .chunk => Checked.chunk
  | .advance n => Checked.advance n

end Step

/-! ### Sessions -/

/-- A step that was taken: where it began, what came of it, and where it ended. -/
structure Event (σ : Type) : Type 1 where
  before : σ
  step : Step
  outcome : Except Stop step.Result
  after : σ

namespace Event

variable {σ τ : Type}

/-- The event of a step. -/
def of (run : (s : Step) → EStateM Stop σ s.Result) (before : σ) (s : Step) : Event σ :=
  match run s before with
  | .ok a after => ⟨before, s, .ok a, after⟩
  | .error f after => ⟨before, s, .error f, after⟩

def map (f : σ → τ) (e : Event σ) : Event τ := ⟨f e.before, e.step, e.outcome, f e.after⟩

/-- A primitive query was answered. -/
def answered : Event σ → Bool
  | ⟨_, .read q, .ok _, _⟩ => q.primitive
  | _ => false

/-- The bytes of the input between the beginning and the end of an event. -/
def slice (input : Bytes) (e : Event Cursor) : Bytes :=
  input.extract e.before.offset e.after.offset

end Event

/-- The events of a session. A step that fails does not end it. -/
def session {σ : Type} (run : (s : Step) → EStateM Stop σ s.Result) : σ → List Step → List (Event σ)
  | _, [] => []
  | c, s :: rest => .of run c s :: session run (Event.of run c s).after rest

/-! ### What queries do -/

namespace Reader

variable {α : Type} {c c' : Cursor} {e : Error} {n : Nat}

/-- If there are not enough bytes, none is taken. -/
theorem eq_of_take_error (h : take n c = .error e c') : c' = c := by
  by_cases hn : n ≤ c.remaining
  · rw [take_eq_ok hn] at h
    cases h
  · rw [take_eq_error (Nat.lt_of_not_le hn)] at h
    cases h
    rfl

theorem eq_of_map_take_error {g : Bytes → α}
    (h : (do return g (← take n) : Reader α) c = .error e c') : c' = c := by
  cases ht : take n c with
  | error e₁ c₁ =>
    have hbind : (do return g (← take n) : Reader α) c = .error e₁ c₁ := bind_of_error ht
    rw [hbind] at h
    cases h
    exact eq_of_take_error ht
  | ok bs c₁ =>
    have hbind : (do return g (← take n) : Reader α) c = .ok (g bs) c₁ := bind_of_ok ht
    rw [hbind] at h
    cases h

end Reader

namespace Query

variable {q : Query} {c c' : Cursor} {a : q.Result} {e : Error}

theorem forward (q : Query) : q.reader.Forward := q.scripted.elim Reader.compositional_forward

/-- A query is answered by the bytes that are passed over, wherever they stand. -/
theorem exists_reads (h : q.reader c = .ok a c') :
    ∃ bs, c.Passes bs c' ∧ q.reader.Reads bs a := by
  obtain ⟨bs, hbs, hreads, -⟩ := (q.scripted.elim Reader.compositional_delimited).1 c c' a h
  exact ⟨bs, hbs, hreads⟩

/-- A primitive query that fails has found too few bytes. -/
theorem eq_of_error (hq : q.primitive) (h : q.reader c = .error e c') : c' = c := by
  cases q with
  | bytes n => exact Reader.eq_of_take_error h
  | uint w => exact Reader.eq_of_map_take_error h
  | array n =>
    have h : Blob.read n c = .error e c' := h
    unfold Blob.read at h
    split at h
    · cases h
    · cases h
      rfl
  | word υ =>
    have h : (Wire.read : Reader υ) c = .error e c' := h
    rw [LawfulWord.read_eq] at h
    exact Reader.eq_of_map_take_error h
  | _ => cases hq

/-- A primitive query is answered with the bytes that are passed over, or with their number. -/
theorem exists_shows (hq : q.primitive) (h : q.reader c = .ok a c') :
    ∃ bs, c.Passes bs c' ∧ q.Shows bs a := by
  cases q with
  | bytes n =>
    obtain ⟨hlength, hbs⟩ := Reader.take_eq_ok_iff.1 h
    exact ⟨a, hbs, hlength, rfl⟩
  | uint w =>
    obtain ⟨bs, hencode, hbs⟩ := Reader.scalar_eq_ok_iff.1 h
    obtain ⟨hle, heq⟩ := Width.encode_eq_ok_iff.1 hencode
    refine ⟨bs, hbs, Width.length_of_encode hencode, ?_⟩
    rw [heq, leValue_leBytes ((w.le_maxValue_iff _).1 hle)]
  | array n =>
    obtain ⟨bs, hbs, hwrite⟩ := (Wire.Lawful.blob n).write_of_read h
    cases hwrite
    exact ⟨_, hbs, Blob.length_eq a, rfl⟩
  | word υ =>
    obtain ⟨bs, hbs, hwrite⟩ := (Wire.Lawful.word υ).write_of_read h
    have hwrite : Except.ok _ = .ok bs := (LawfulWord.write_eq (υ := υ) a).symm.trans hwrite
    cases hwrite
    have hle := LawfulWord.toNat_le (υ := υ) a
    refine ⟨_, hbs, length_leBytes .., ?_⟩
    rw [leValue_leBytes (((Word.width υ).le_maxValue_iff _).1 hle)]
  | _ => cases hq

end Query

/-! ### What steps do -/

namespace Step

variable {α : Type} {r : Reader α} {c c' : Cursor}

theorem ofReader_eq_ok_iff {a : α} : ofReader r c = .ok a c' ↔ r c = .ok a c' := by
  unfold ofReader
  cases r c <;> simp

theorem exists_of_ofReader_eq_error {f : Stop} (h : ofReader r c = .error f c') :
    ∃ e, f = .fails e ∧ r c = .error e c' := by
  unfold ofReader at h
  cases hr : r c with
  | ok a c₁ =>
    rw [hr] at h
    cases h
  | error e c₁ =>
    rw [hr] at h
    cases h
    exact ⟨e, rfl, rfl⟩

/-- What came of a step, with its position in the whole input. -/
def resultIn (input : Bytes) : EStateM.Result Stop Cursor α → EStateM.Result Stop Position α
  | .ok a c => .ok a ⟨input, c.offset⟩
  | .error f c => .error f ⟨input, c.offset⟩

theorem resultIn_ofReader (input : Bytes) (r : Reader α) (c : Cursor) :
    resultIn input (ofReader r c) = Checked.outcome input (r c) := by
  unfold ofReader
  cases r c <;> rfl

theorem run_advance_of_le {n : Nat} (h : n ≤ c.remaining) :
    run (.advance n) c = .ok () ⟨c.offset + n, c.rest.drop n⟩ := by
  show moveOn n c = _
  unfold moveOn Cursor.advance?
  rw [if_pos h]
  rfl

theorem run_advance_of_lt {n : Nat} (h : c.remaining < n) :
    run (.advance n) c = .error .panics c := by
  show moveOn n c = _
  unfold moveOn Cursor.advance?
  rw [if_neg (Nat.not_le_of_lt h)]
  rfl

end Step

namespace Event

variable {σ : Type} {run : (s : Step) → EStateM Stop σ s.Result}

@[simp] theorem before_of (c : σ) (s : Step) : (of run c s).before = c := by
  unfold of
  split <;> rfl

@[simp] theorem step_of (c : σ) (s : Step) : (of run c s).step = s := by
  unfold of
  split <;> rfl

theorem run_of_ok {c before after : σ} {s t : Step} {a : t.Result}
    (h : ⟨before, t, .ok a, after⟩ = of run c s) : run t before = .ok a after := by
  unfold of at h
  split at h
  · next hr =>
    cases h
    exact hr
  · cases h

theorem run_of_error {c before after : σ} {s t : Step} {f : Stop}
    (h : ⟨before, t, .error f, after⟩ = of run c s) : run t before = .error f after := by
  unfold of at h
  split at h
  · cases h
  · next hr =>
    cases h
    exact hr

/-- The end of a step that is a reader. -/
theorem after_ofReader {s : Step} {r : Reader s.Result} {c : Cursor}
    (h : s.run = Step.ofReader r) : (of Step.run c s).after = r.final c := by
  unfold of Reader.final
  rw [h]
  unfold Step.ofReader
  cases r c <;> rfl

/-- A step only moves on. -/
theorem exists_passes (c : Cursor) (s : Step) : ∃ bs, c.Passes bs (of Step.run c s).after := by
  cases s with
  | read q =>
    rw [after_ofReader (s := .read q) rfl]
    exact q.forward c
  | atLeast n =>
    rw [after_ofReader (s := .atLeast n) rfl]
    exact Reader.forward_atLeast n c
  | exhausted =>
    rw [after_ofReader (s := .exhausted) rfl]
    exact Reader.forward_exhausted c
  | chunk => exact ⟨[], .refl c⟩
  | advance n =>
    unfold of
    by_cases hn : n ≤ c.remaining
    · have hlength : (c.rest.take n).length = n := List.length_take_of_le hn
      rw [Step.run_advance_of_le hn]
      exact ⟨c.rest.take n, (List.take_append_drop n c.rest).symm, by rw [hlength]⟩
    · rw [Step.run_advance_of_lt (Nat.lt_of_not_le hn)]
      exact ⟨[], .refl c⟩

theorem offset_le_of (c : Cursor) (s : Step) :
    (of Step.run c s).before.offset ≤ (of Step.run c s).after.offset := by
  obtain ⟨bs, hbs⟩ := exists_passes c s
  have := hbs.offset
  rw [before_of]
  omega

theorem within_of {input : Bytes} {c : Cursor} (hc : c.Within input) (s : Step) :
    (of Step.run c s).after.Within input := by
  obtain ⟨bs, hbs⟩ := exists_passes c s
  exact hc.passes hbs

theorem look_of {c : Cursor} {s : Step}
    (h : (∃ n, s = .atLeast n) ∨ s = .exhausted ∨ s = .chunk) : (of Step.run c s).after = c := by
  rcases h with ⟨n, rfl⟩ | rfl | rfl
  · rw [after_ofReader (s := .atLeast n) rfl]
    exact Reader.final_atLeast n c
  · rw [after_ofReader (s := .exhausted) rfl]
    exact Reader.final_exhausted c
  · rfl

theorem advance_of {c before after : Cursor} {s : Step} {n : Nat} {x : Except Stop Unit}
    (h : ⟨before, .advance n, x, after⟩ = of Step.run c s) :
    (n ≤ before.remaining ∧ x = .ok () ∧ after.offset = before.offset + n) ∨
      (before.remaining < n ∧ x = .error .panics ∧ after = before) := by
  by_cases hn : n ≤ before.remaining
  · have hmove := Step.run_advance_of_le hn
    cases x with
    | ok u =>
      cases hmove.symm.trans (run_of_ok h)
      exact .inl ⟨hn, rfl, rfl⟩
    | error f => cases hmove.symm.trans (run_of_error h)
  · have hmove := Step.run_advance_of_lt (Nat.lt_of_not_le hn)
    cases x with
    | ok u => cases hmove.symm.trans (run_of_ok h)
    | error f =>
      cases hmove.symm.trans (run_of_error h)
      exact .inr ⟨Nat.lt_of_not_le hn, rfl, rfl⟩

theorem eq_of_query_error {c before after : Cursor} {s : Step} {q : Query} {f : Stop}
    (h : ⟨before, .read q, .error f, after⟩ = of Step.run c s) (hq : q.primitive) :
    after = before := by
  obtain ⟨e, -, hread⟩ := Step.exists_of_ofReader_eq_error (run_of_error h)
  exact Query.eq_of_error hq hread

theorem read_of {input : Bytes} {c before after : Cursor} {s : Step} {q : Query} {a : q.Result}
    (hc : c.Within input) (h : ⟨before, .read q, .ok a, after⟩ = of Step.run c s) :
    q.reader.decode (input.extract before.offset after.offset) = .ok a ∧
      q.reader.Reads (input.extract before.offset after.offset) a ∧
        (q.primitive → q.Shows (input.extract before.offset after.offset) a) := by
  obtain rfl : before = c := (congrArg Event.before h).trans (before_of c s)
  have hread : q.reader before = .ok a after := Step.ofReader_eq_ok_iff.1 (run_of_ok h)
  obtain ⟨bs, hbs, hreads⟩ := Query.exists_reads hread
  rw [← hc.bytes_eq hbs]
  refine ⟨hreads.decode, hreads, fun hq => ?_⟩
  obtain ⟨cs, hcs, hshows⟩ := Query.exists_shows hq hread
  rwa [hc.bytes_eq hbs, ← hc.bytes_eq hcs]

end Event

namespace Session

/-- What is said of the events of a session on an input. -/
structure Disciplined (input : Bytes) (events : List (Event Cursor)) : Prop where
  /-- The first step begins where the input does. -/
  start : ∀ e ∈ events.head?, e.before = .start input
  /-- Every other step begins where the one before it ended. -/
  chained : events.IsChain fun e e' => e'.before = e.after
  /-- No step leads out of the input. -/
  within : ∀ e ∈ events, e.after.offset ≤ input.length ∧ e.after.rest = input.drop e.after.offset ∧
    e.after.remaining = input.length - e.after.offset
  /-- No step moves back. -/
  forward : ∀ e ∈ events, e.before.offset ≤ e.after.offset
  monotone : events.Pairwise fun e e' => e.after.offset ≤ e'.after.offset
  /-- A primitive query that fails does not move. -/
  unmoved_of_error {before after : Cursor} {q : Query} {f : Stop} :
    (⟨before, .read q, .error f, after⟩ : Event Cursor) ∈ events → q.primitive → after = before
  /-- The cursor is moved on if there are as many bytes left, and stays otherwise. -/
  advance {before after : Cursor} {n : Nat} {x : Except Stop Unit} :
    (⟨before, .advance n, x, after⟩ : Event Cursor) ∈ events →
      (n ≤ before.remaining ∧ x = .ok () ∧ after.offset = before.offset + n) ∨
        (before.remaining < n ∧ x = .error .panics ∧ after = before)
  /-- What is looked at stays. -/
  unmoved_of_look {e : Event Cursor} : e ∈ events →
    (∃ n, e.step = .atLeast n) ∨ e.step = .exhausted ∨ e.step = .chunk → e.after = e.before
  /-- What is read is read from the bytes that were passed over, as from these bytes alone, and
  wherever they stand. -/
  read {before after : Cursor} {q : Query} {a : q.Result} :
    (⟨before, .read q, .ok a, after⟩ : Event Cursor) ∈ events →
      q.reader.decode (input.extract before.offset after.offset) = .ok a ∧
        q.reader.Reads (input.extract before.offset after.offset) a ∧
          (q.primitive → q.Shows (input.extract before.offset after.offset) a)
  /-- Where only primitive queries that were answered have moved, their bytes make up all that lies
  between. -/
  slices {part : List (Event Cursor)} {first last : Event Cursor} : part <:+: events →
    part.head? = some first → part.getLast? = some last →
    (∀ e ∈ part, e.answered = false → e.after.offset = e.before.offset) →
      ((part.filter (·.answered)).map (·.slice input)).flatten =
        input.extract first.before.offset last.after.offset

/-! ### What sessions do -/

section Runs

variable {σ : Type} {run : (s : Step) → EStateM Stop σ s.Result} {c : σ} {steps : List Step}

theorem before_of_head {e : Event σ} (h : e ∈ (session run c steps).head?) : e.before = c := by
  cases steps with
  | nil => cases h
  | cons s rest =>
    cases h
    exact Event.before_of c s

theorem chained_session : (session run c steps).IsChain fun e e' => e'.before = e.after := by
  induction steps generalizing c with
  | nil => exact .nil
  | cons s rest ih => exact .cons ih fun e he => before_of_head he

/-- Every event of a session is that of a step from a state that the steps before have kept. -/
theorem exists_of_mem {P : σ → Prop} (hstep : ∀ c s, P c → P (Event.of run c s).after) (hc : P c)
    {e : Event σ} (he : e ∈ session run c steps) : ∃ c s, P c ∧ e = Event.of run c s := by
  induction steps generalizing c with
  | nil => cases he
  | cons s rest ih =>
    rcases List.mem_cons.1 he with rfl | he
    · exact ⟨c, s, hc, rfl⟩
    · exact ih (hstep c s hc) he

end Runs

section Slices

variable {input : Bytes}

theorem extract_append {start middle stop : Nat} (h : start ≤ middle) (h' : middle ≤ stop) :
    input.extract start middle ++ input.extract middle stop = input.extract start stop := by
  have hsum : stop - start = (middle - start) + (stop - middle) := by omega
  have hplace : start + (middle - start) = middle := by omega
  unfold List.extract
  rw [hsum, List.take_add, List.drop_drop, hplace]

/-- What the first of some events has passed over comes in front of the rest. -/
theorem flatten_slices_cons {e : Event Cursor} (events : List (Event Cursor))
    (hstill : e.answered = false → e.after.offset = e.before.offset) :
    (((e :: events).filter (·.answered)).map (·.slice input)).flatten =
      input.extract e.before.offset e.after.offset ++
        ((events.filter (·.answered)).map (·.slice input)).flatten := by
  cases h : e.answered with
  | true =>
    rw [List.filter_cons_of_pos h, List.map_cons, List.flatten_cons]
    rfl
  | false =>
    have hempty : input.extract e.before.offset e.after.offset = [] := by
      unfold List.extract
      rw [hstill h, Nat.sub_self, List.take_zero]
    rw [List.filter_cons_of_neg (by simp [h]), hempty, List.nil_append]

/-- What lies between two events is made up of what each of them has passed over. -/
theorem flatten_slices {part : List (Event Cursor)} {first last : Event Cursor}
    (hchain : part.IsChain fun e e' => e'.before = e.after)
    (hforward : ∀ e ∈ part, e.before.offset ≤ e.after.offset)
    (hstill : ∀ e ∈ part, e.answered = false → e.after.offset = e.before.offset)
    (hfirst : part.head? = some first) (hlast : part.getLast? = some last) :
    first.before.offset ≤ last.after.offset ∧
      ((part.filter (·.answered)).map (·.slice input)).flatten =
        input.extract first.before.offset last.after.offset := by
  induction hchain generalizing first with
  | nil => cases hfirst
  | singleton e =>
    cases hfirst
    cases hlast
    refine ⟨hforward e List.mem_cons_self, ?_⟩
    rw [flatten_slices_cons [] (hstill e List.mem_cons_self)]
    exact List.append_nil _
  | @cons_cons e e' rest hnext _ ih =>
    cases hfirst
    rw [List.forall_mem_cons] at hforward hstill
    rw [List.getLast?_cons_cons] at hlast
    obtain ⟨hle, hrest⟩ := ih hforward.2 hstill.2 rfl hlast
    rw [hnext] at hle hrest
    refine ⟨Nat.le_trans hforward.1 hle, ?_⟩
    rw [flatten_slices_cons _ hstill.1, hrest]
    exact extract_append hforward.1 hle

end Slices

/-- Whatever is done with a cursor on an input, in whatever order, is disciplined. -/
theorem disciplined_session (input : Bytes) (steps : List Step) :
    Disciplined input (session Step.run (.start input) steps) := by
  have hevents : ∀ e ∈ session Step.run (.start input) steps,
      ∃ c s, c.Within input ∧ e = Event.of Step.run c s := fun e he =>
    exists_of_mem (P := (·.Within input)) (fun c s hc => Event.within_of hc s) (.start input) he
  have hforward : ∀ e ∈ session Step.run (.start input) steps,
      e.before.offset ≤ e.after.offset := by
    intro e he
    obtain ⟨c, s, -, rfl⟩ := hevents e he
    exact Event.offset_le_of c s
  constructor
  case start => exact fun e he => before_of_head he
  case chained => exact chained_session
  case within =>
    intro e he
    obtain ⟨c, s, hc, rfl⟩ := hevents e he
    have hafter := Event.within_of hc s
    exact ⟨hafter.offset_le, hafter.rest, hafter.remaining_eq⟩
  case forward => exact hforward
  case monotone =>
    rw [← List.isChain_iff_pairwise]
    refine chained_session.imp_of_mem_imp fun e e' _ he' hnext => ?_
    rw [← hnext]
    exact hforward e' he'
  case unmoved_of_error =>
    intro before after q f he hq
    obtain ⟨c, s, -, he⟩ := hevents _ he
    exact Event.eq_of_query_error he hq
  case advance =>
    intro before after n x he
    obtain ⟨c, s, -, he⟩ := hevents _ he
    exact Event.advance_of he
  case unmoved_of_look =>
    intro e he hlook
    obtain ⟨c, s, -, rfl⟩ := hevents _ he
    rw [Event.step_of] at hlook
    rw [Event.look_of hlook, Event.before_of]
  case read =>
    intro before after q a he
    obtain ⟨c, s, hc, he⟩ := hevents _ he
    exact Event.read_of hc he
  case slices =>
    intro part first last hpart hfirst hlast hstill
    have hchain : part.IsChain fun e e' => e'.before = e.after := by
      have hevents := @chained_session _ Step.run (.start input) steps
      obtain ⟨pre, post, heq⟩ := hpart
      rw [← heq] at hevents
      exact hevents.left_of_append.right_of_append
    exact (flatten_slices hchain (fun e he => hforward e (hpart.subset he)) hstill hfirst hlast).2

/-! ### Machine words -/

section Checked

variable {input : Bytes} (hshort : input.length < 2 ^ 63)
  {storage : Type → Checked.Storage} (hroom : ∀ β, (storage β).Ample input.length)
  {scripts : (q : Query) → Script q.Result} (hscripts : ∀ q, (scripts q).reader = q.reader)
include hshort hroom hscripts

/-- What a step does with machine words, wherever it begins in the input. -/
theorem checked_eq {c : Cursor} (hc : c.Within input) (s : Step) :
    s.checked storage scripts ⟨input, c.offset⟩ = Step.resultIn input (s.run c) := by
  have hvalid := hc.valid hshort
  have hreader : ∀ {α : Type} {m : Checked.Reader α} {r : Reader α},
      Checked.Follows (Set.range storage) m r →
        m ⟨input, c.offset⟩ = Step.resultIn input (Step.ofReader r c) := by
    intro α m r h
    rw [h.eq_of_ample hvalid hroom, hc.cursor_eq, Step.resultIn_ofReader]
  cases s with
  | read q =>
    have hfollows := (scripts q).follows storage
    rw [hscripts] at hfollows
    exact hreader hfollows
  | atLeast n => exact hreader (Checked.follows_atLeast n)
  | exhausted => exact hreader Checked.follows_exhausted
  | chunk =>
    refine (Checked.chunk_eq hvalid).trans ?_
    rw [hc.cursor_eq]
    rfl
  | advance n =>
    by_cases hn : n ≤ c.remaining
    · rw [Step.run_advance_of_le hn]
      exact Checked.advance_of_le hvalid (by rwa [hc.cursor_eq])
    · rw [Step.run_advance_of_lt (Nat.lt_of_not_le hn)]
      refine Checked.advance_of_lt hvalid ?_
      rw [hc.cursor_eq]
      exact Nat.lt_of_not_le hn

theorem of_checked {c : Cursor} (hc : c.Within input) (s : Step) :
    Event.of (Step.checked storage scripts) ⟨input, c.offset⟩ s =
      (Event.of Step.run c s).map fun c => ⟨input, c.offset⟩ := by
  unfold Event.of
  rw [checked_eq hshort hroom hscripts hc s]
  cases s.run c <;> rfl

/-- With machine words the same events take place. -/
theorem session_checked {c : Cursor} (hc : c.Within input) (steps : List Step) :
    session (Step.checked storage scripts) ⟨input, c.offset⟩ steps =
      (session Step.run c steps).map (·.map fun c => ⟨input, c.offset⟩) := by
  induction steps generalizing c with
  | nil => rfl
  | cons s rest ih =>
    unfold session
    rw [List.map_cons, of_checked hshort hroom hscripts hc]
    exact congrArg _ (ih (Event.within_of hc s))

end Checked

/-- Whatever is done with a cursor on an input, in whatever order, is disciplined. The queries have
scripts, and whatever their scripts are, the same events take place when they are carried out with
machine words, as long as there is room for vectors of as many items as the input has bytes: the
input stays as it is, the offsets are the same, and nothing goes out of range but a move past the
end. -/
theorem disciplined (input : Bytes) (steps : List Step) :
    Disciplined input (session Step.run (.start input) steps) ∧
      (∃ scripts : (q : Query) → Script q.Result, ∀ q, (scripts q).reader = q.reader) ∧
      ∀ scripts : (q : Query) → Script q.Result, (∀ q, (scripts q).reader = q.reader) →
        input.length < 2 ^ 63 →
        ∀ storage : Type → Checked.Storage, (∀ β, (storage β).Ample input.length) →
          session (Step.checked storage scripts) ⟨input, 0⟩ steps =
            (session Step.run (.start input) steps).map (·.map fun c => ⟨input, c.offset⟩) := by
  refine ⟨disciplined_session input steps, ?_, fun scripts hscripts hshort storage hroom => ?_⟩
  · choose scripts hscripts using Query.scripted
    exact ⟨scripts, hscripts⟩
  · exact session_checked hshort hroom hscripts (.start input) steps

/-- A session in which a request for more bytes than there can be, a move past the end and a group
fail. The group fails after two items. -/
theorem disciplined_interrupted :
    ([2, 0, 7, 1, 8, 3, 9, 9, 4] : Bytes).length < 2 ^ 63 ∧
      ∃ scripts : (q : Query) → Script q.Result, (∀ q, (scripts q).reader = q.reader) ∧
        (session (Step.checked (fun _ => .doubling 40) scripts) ⟨[2, 0, 7, 1, 8, 3, 9, 9, 4], 0⟩
          [.read (.word UInt16), .read (.bytes (2 ^ 64 - 1)), .advance (2 ^ 64 - 1),
            .read (.uint .one), .read (.typed (AccountPropertiesModification UInt8)),
            .read (.budgeted (Wire.read : Reader UInt16) Wire.Scripted.scripted_read 3),
            .exhausted]).map (·.after.offset) = [2, 2, 2, 3, 5, 9, 9] := by
  have hshort : ([2, 0, 7, 1, 8, 3, 9, 9, 4] : Bytes).length < 2 ^ 63 := by decide
  obtain ⟨-, ⟨scripts, hscripts⟩, hchecked⟩ := disciplined [2, 0, 7, 1, 8, 3, 9, 9, 4]
    [.read (.word UInt16), .read (.bytes (2 ^ 64 - 1)), .advance (2 ^ 64 - 1),
      .read (.uint .one), .read (.typed (AccountPropertiesModification UInt8)),
      .read (.budgeted (Wire.read : Reader UInt16) Wire.Scripted.scripted_read 3), .exhausted]
  refine ⟨hshort, scripts, hscripts, ?_⟩
  rw [hchecked scripts hscripts hshort _ fun _ => Checked.Storage.ample_doubling (by decide)]
  rfl

end Session

end WireSchema
