import Mathlib.Data.List.Induction
import WireSchema.Proofs.Codec.Setting
import WireSchema.Proofs.Record.Slots

/-!
# The history of a record

A record starts out empty and is changed step by step: fields are assigned, with or without a check
against a layout, and taken away again. The events of a session tell what the record holds without a
look at it: a field has the content that was last assigned to it, and the fields are in the order in
which they came in.

* `Record.Step` and `Record.Event`: what can be done with a record, and what came of it.
* `Record.LastAssigned` and `Record.Entered`: what a history tells of a field.
* `Record.Reflects`: a record is what its history tells.
* `Record.reflects_events`: a record that is put together in any way reflects its history.
-/

namespace WireSchema

namespace Record

/-! ### Steps -/

/-- Something that is done with a record. -/
inductive Step where
  | insert (name : String) (content : Value)
  /-- An insertion of which the answer is the record, so that more can follow. -/
  | extend (name : String) (content : Value)
  /-- Other content is put in the place of what the field holds, if it is there. -/
  | replace (name : String) (content : Value)
  | remove (name : String)
  /-- An insertion that is checked against a layout. -/
  | set (schema : Schema) (type name : String) (content : Value)

/-- What a step answers. -/
inductive Answer where
  | previous (content : Option Value)
  | extended
  | found (present : Bool)
  | checked (result : Except Error Unit)

namespace Step

/-- The field that a step is about. -/
def name : Step → String
  | .insert name _ | .extend name _ | .replace name _ | .remove name | .set _ _ name _ => name

/-- What a step answers, and the record that it leaves. -/
def run : Step → Record → Answer × Record
  | .insert name content, r => (.previous (r.get? name), r.insert name content)
  | .extend name content, r => (.extended, r.insert name content)
  | .replace name content, r =>
    match r.replace? name content with
    | some changed => (.found true, changed)
    | none => (.found false, r)
  | .remove name, r =>
    match r.remove? name with
    | some (content, rest) => (.previous (some content), rest)
    | none => (.previous none, r)
  | .set schema type name content, r =>
    match schema.set type r name content with
    | .ok changed => (.checked (.ok ()), changed)
    | .error e => (.checked (.error e), r)

/-- The same in a row of slots. -/
def runSlots : Step → Record → Answer × Record
  | .insert name content, r =>
    let (previous, changed) := Slots.insert r name content
    (.previous previous, changed)
  | .extend name content, r => (.extended, (Slots.insert r name content).2)
  | .replace name content, r =>
    match Slots.replace? r name content with
    | some changed => (.found true, changed)
    | none => (.found false, r)
  | .remove name, r =>
    let (previous, rest) := Slots.remove r name
    (.previous previous, rest)
  | .set schema type name content, r =>
    match (schema.encoder type).check name content with
    | .ok _ => (.checked (.ok ()), (Slots.insert r name content).2)
    | .error e => (.checked (.error e), r)

section Run

variable (r : Record) (name : String) (content : Value)

theorem run_replace : (Step.replace name content).run r =
    if name ∈ names r then (.found true, r.insert name content) else (.found false, r) := by
  by_cases hmem : name ∈ names r
  · obtain ⟨front, old, back, h⟩ := exists_parts hmem
    rw [if_pos hmem, run, replace?, h.get?_eq]
  · rw [if_neg hmem, run, replace?, (get?_eq_none_iff r name).2 hmem]

/-- What is taken away is what the record held. -/
theorem run_remove : (Step.remove name).run r = (.previous (r.get? name), r.without name) := by
  by_cases hmem : name ∈ names r
  · obtain ⟨front, old, back, h⟩ := exists_parts hmem
    rw [run, h.remove?_eq, h.get?_eq, h.without_eq]
  · rw [run, (remove?_eq_none_iff r name).2 hmem, (get?_eq_none_iff r name).2 hmem,
      without_of_notMem hmem]

theorem run_set (schema : Schema) (type : String) : (Step.set schema type name content).run r =
    match (schema.encoder type).check name content with
    | .ok _ => (.checked (.ok ()), r.insert name content)
    | .error e => (.checked (.error e), r) := by
  rw [run, Schema.set]
  cases (schema.encoder type).check name content <;> rfl

end Run

theorem runSlots_eq (s : Step) (r : Record) : s.runSlots r = s.run r := by
  cases s with
  | insert name content => rw [runSlots, Slots.insert_eq, run]
  | extend name content => rw [runSlots, Slots.insert_eq, run]
  | replace name content => rw [runSlots, Slots.replace?_eq, run]
  | remove name => rw [runSlots, Slots.remove_eq, run_remove]
  | set schema type name content => rw [runSlots, Slots.insert_eq, run_set]

end Step

/-! ### Events -/

/-- A step that was taken: the record before it, what it answered, and the record after it. -/
structure Event where
  before : Record
  step : Step
  answer : Answer
  after : Record

/-- What becomes of a record. -/
inductive Change where
  | assigns (name : String) (content : Value)
  | removes (name : String)
  | nothing

namespace Change

/-- The field that is changed. -/
def target? : Change → Option String
  | .assigns name _ => some name
  | .removes name => some name
  | .nothing => none

def apply : Change → Record → Record
  | .assigns name content, r => r.insert name content
  | .removes name, r => r.without name
  | .nothing, r => r

end Change

namespace Event

/-- The event of a step. -/
def of (r : Record) (s : Step) : Event := ⟨r, s, (s.run r).1, (s.run r).2⟩

/-- What became of the record, as far as the step and its answer tell. -/
def change (e : Event) : Change :=
  match e.step, e.answer with
  | .insert name content, _ => .assigns name content
  | .extend name content, _ => .assigns name content
  | .replace name content, .found true => .assigns name content
  | .remove name, .previous (some _) => .removes name
  | .set _ _ name content, .checked (.ok _) => .assigns name content
  | _, _ => .nothing

/-- What a step leaves can be told from its answer. -/
theorem after_of (r : Record) (s : Step) : (of r s).after = (of r s).change.apply r := by
  cases s with
  | insert name content => rfl
  | extend name content => rfl
  | replace name content =>
    unfold of
    rw [Step.run_replace]
    by_cases hmem : name ∈ names r
    · rw [if_pos hmem]
      rfl
    · rw [if_neg hmem]
      rfl
  | remove name =>
    unfold of
    rw [Step.run_remove]
    cases hget : r.get? name with
    | some content => rfl
    | none => exact without_of_notMem ((get?_eq_none_iff r name).1 hget)
  | set schema type name content =>
    unfold of
    rw [Step.run_set]
    cases (schema.encoder type).check name content <;> rfl

theorem eq_name_of_target? {e : Event} {name : String} (h : e.change.target? = some name) :
    name = e.step.name := by
  unfold change at h
  split at h <;> cases h <;> simp only [Step.name, *]

end Event

/-- The events of a session. A step that fails does not end it. -/
def events : Record → List Step → List Event
  | _, [] => []
  | r, s :: rest => .of r s :: events (s.run r).2 rest

/-- The record that a session leaves. -/
def result (r : Record) (steps : List Step) : Record := steps.foldl (fun r s => (s.run r).2) r

theorem events_append_singleton (r : Record) (steps : List Step) (s : Step) :
    events r (steps ++ [s]) = events r steps ++ [.of (result r steps) s] := by
  induction steps generalizing r with
  | nil => rfl
  | cons first rest ih => exact congrArg _ (ih (first.run r).2)

theorem result_append_singleton (r : Record) (steps : List Step) (s : Step) :
    result r (steps ++ [s]) = (s.run (result r steps)).2 := List.foldl_concat ..

theorem exists_of_mem_events {r : Record} {steps : List Step} {e : Event}
    (h : e ∈ events r steps) : ∃ r s, e = .of r s := by
  induction steps generalizing r with
  | nil => cases h
  | cons first rest ih =>
    rcases List.mem_cons.1 h with rfl | h
    · exact ⟨r, first, rfl⟩
    · exact ih h

/-! ### What a history tells -/

/-- The content was assigned to the field, which has neither been assigned nor removed since. -/
def LastAssigned (history : List Event) (name : String) (content : Value) : Prop :=
  ∃ past e since, history = past ++ e :: since ∧ e.change = .assigns name content ∧
    ∀ e' ∈ since, e'.change.target? ≠ some name

/-- The field was absent before the event number `i`, was assigned by it, and has not been removed
since. -/
def Entered (history : List Event) (name : String) (i : Nat) : Prop :=
  ∃ past e since, history = past ++ e :: since ∧ past.length = i ∧
    (∀ content, ¬LastAssigned past name content) ∧ (∃ content, e.change = .assigns name content) ∧
      ∀ e' ∈ since, e'.change ≠ .removes name

section Told

variable {past : List Event} {e : Event} {name : String} {content : Value} {i : Nat}

/-- An event of a longer history is the last one, or one of those before it. -/
theorem exists_split_append_singleton {α : Type} {xs : List α} {x : α}
    {P : List α → α → List α → Prop} :
    (∃ front y back, xs ++ [x] = front ++ y :: back ∧ P front y back) ↔
      P xs x [] ∨ ∃ front y back, xs = front ++ y :: back ∧ P front y (back ++ [x]) := by
  constructor
  · rintro ⟨front, y, back, heq, hp⟩
    rcases List.eq_nil_or_concat back with rfl | ⟨back, z, rfl⟩
    · obtain ⟨rfl, rfl⟩ := List.append_singleton_inj.1 heq
      exact .inl hp
    · rw [List.concat_eq_append] at heq hp
      rw [← List.cons_append, ← List.append_assoc] at heq
      obtain ⟨rfl, rfl⟩ := List.append_singleton_inj.1 heq
      exact .inr ⟨front, y, back, rfl, hp⟩
  · rintro (hp | ⟨front, y, back, rfl, hp⟩)
    · exact ⟨xs, x, [], rfl, hp⟩
    · exact ⟨front, y, back ++ [x], by simp, hp⟩

theorem lastAssigned_append_singleton :
    LastAssigned (past ++ [e]) name content ↔
      e.change = .assigns name content ∨
        LastAssigned past name content ∧ e.change.target? ≠ some name := by
  unfold LastAssigned
  rw [exists_split_append_singleton]
  simp only [List.forall_mem_append, List.forall_mem_singleton, List.not_mem_nil, false_imp_iff,
    implies_true, and_true, ← and_assoc, exists_and_right]

theorem entered_append_singleton :
    Entered (past ++ [e]) name i ↔
      (past.length = i ∧ (∀ content, ¬LastAssigned past name content) ∧
        ∃ content, e.change = .assigns name content) ∨
          Entered past name i ∧ e.change ≠ .removes name := by
  unfold Entered
  rw [exists_split_append_singleton]
  simp only [List.forall_mem_append, List.forall_mem_singleton, List.not_mem_nil, false_imp_iff,
    implies_true, and_true, ← and_assoc, exists_and_right]

theorem Entered.lt_length (h : Entered past name i) : i < past.length := by
  obtain ⟨front, e, since, rfl, rfl, -⟩ := h
  simp

end Told

/-- The record is what its history tells. -/
structure Reflects (r : Record) (history : List Event) : Prop where
  distinct : (names r).Nodup
  /-- A field has the content that was assigned to it last, if it has not been removed since. -/
  content (name : String) (content : Value) :
    r.get? name = some content ↔ LastAssigned history name content
  /-- A field is there if it has come in, which it did once since it was last absent. -/
  present (name : String) : name ∈ names r ↔ ∃ i, Entered history name i
  unique {name : String} {i j : Nat} : Entered history name i → Entered history name j → i = j
  /-- The fields are in the order in which they came in. -/
  ordered : (names r).Pairwise fun m n => ∀ i j, Entered history m i → Entered history n j → i < j

namespace Reflects

theorem empty : Reflects [] [] where
  distinct := .nil
  content name content := by simp [LastAssigned]
  present name := by simp [Entered, names]
  unique h := absurd h.lt_length (Nat.not_lt_zero _)
  ordered := .nil

variable {r : Record} {past : List Event} {e : Event} (h : Reflects r past)
include h

theorem not_lastAssigned_iff (name : String) :
    (∀ content, ¬LastAssigned past name content) ↔ name ∉ names r := by
  rw [← get?_eq_none_iff, Option.eq_none_iff_forall_ne_some]
  exact forall_congr' fun content => not_congr (h.content name content).symm

/-- A field comes in where it is assigned and has been absent. -/
theorem entered_iff {name : String} {i : Nat} :
    Entered (past ++ [e]) name i ↔
      (past.length = i ∧ name ∉ names r ∧ ∃ content, e.change = .assigns name content) ∨
        Entered past name i ∧ e.change ≠ .removes name := by
  rw [entered_append_singleton, h.not_lastAssigned_iff]

theorem assign {name : String} {content : Value} (he : e.change = .assigns name content) :
    Reflects (r.insert name content) (past ++ [e]) := by
  have hentered {m : String} {i : Nat} : Entered (past ++ [e]) m i ↔
      (past.length = i ∧ m ∉ names r ∧ name = m) ∨ Entered past m i := by
    rw [h.entered_iff, he]
    simp
  -- a field that was there came in when it did before
  have hpast {m : String} {i : Nat} (hm : m ∈ names r) (hi : Entered (past ++ [e]) m i) :
      Entered past m i := (hentered.1 hi).resolve_left fun hnew => hnew.2.1 hm
  have hordered : (names r).Pairwise fun m n =>
      ∀ i j, Entered (past ++ [e]) m i → Entered (past ++ [e]) n j → i < j :=
    h.ordered.imp_of_mem fun hm hn hlt i j hi hj => hlt i j (hpast hm hi) (hpast hn hj)
  constructor
  case distinct => exact nodup_names_insert h.distinct name content
  case content =>
    intro m other
    rw [lastAssigned_append_singleton, he]
    by_cases hm : m = name
    · subst hm
      simp [Change.target?]
    · rw [get?_insert_of_ne r content hm, h.content]
      simp [Change.target?, Ne.symm hm]
  case present =>
    intro m
    rw [mem_names_insert, h.present]
    constructor
    · rintro (rfl | ⟨i, hi⟩)
      · by_cases hm : m ∈ names r
        · obtain ⟨i, hi⟩ := (h.present m).1 hm
          exact ⟨i, hentered.2 (.inr hi)⟩
        · exact ⟨past.length, hentered.2 (.inl ⟨rfl, hm, rfl⟩)⟩
      · exact ⟨i, hentered.2 (.inr hi)⟩
    · rintro ⟨i, hi⟩
      exact (hentered.1 hi).imp (fun hnew => hnew.2.2.symm) fun hold => ⟨i, hold⟩
  case unique =>
    intro m i j hi hj
    rcases hentered.1 hi with ⟨rfl, hm, -⟩ | hi
    · rcases hentered.1 hj with ⟨hj, -⟩ | hj
      · exact hj
      · exact absurd ((h.present m).2 ⟨j, hj⟩) hm
    · exact h.unique hi (hpast ((h.present m).2 ⟨i, hi⟩) hj)
  case ordered =>
    rw [names_insert]
    split
    · exact hordered
    · next hname =>
      refine List.pairwise_append.2 ⟨hordered, List.pairwise_singleton _ _, ?_⟩
      intro m hm n hn i j hi hj
      obtain rfl := List.mem_singleton.1 hn
      -- the new field comes in at the end
      rcases hentered.1 hj with ⟨rfl, -⟩ | hj
      · exact (hpast hm hi).lt_length
      · exact absurd ((h.present n).2 ⟨j, hj⟩) hname

theorem remove {name : String} (he : e.change = .removes name) :
    Reflects (r.without name) (past ++ [e]) := by
  have hentered {m : String} {i : Nat} :
      Entered (past ++ [e]) m i ↔ Entered past m i ∧ m ≠ name := by
    rw [h.entered_iff, he]
    simp [eq_comm]
  have hmem {m : String} : m ∈ names (r.without name) ↔ m ∈ names r ∧ m ≠ name := by
    rw [names_without, h.distinct.mem_erase_iff, and_comm]
  constructor
  case distinct =>
    rw [names_without]
    exact h.distinct.erase name
  case content =>
    intro m content
    rw [lastAssigned_append_singleton, he]
    by_cases hm : m = name
    · subst hm
      have hnone : (r.without m).get? m = none :=
        (get?_eq_none_iff _ m).2 fun h => (hmem.1 h).2 rfl
      simp [hnone, Change.target?]
    · rw [← get?_others hm, others_without, get?_others hm, h.content]
      simp [Change.target?, Ne.symm hm]
  case present =>
    intro m
    rw [hmem, h.present]
    simp only [hentered, exists_and_right]
  case unique => exact fun hi hj => h.unique (hentered.1 hi).1 (hentered.1 hj).1
  case ordered =>
    rw [names_without]
    refine (h.ordered.imp fun hlt i j hi hj => ?_).sublist List.erase_sublist
    exact hlt i j (hentered.1 hi).1 (hentered.1 hj).1

theorem keep (he : e.change = .nothing) : Reflects r (past ++ [e]) where
  distinct := h.distinct
  content name content := by
    rw [lastAssigned_append_singleton, he, h.content]
    simp [Change.target?]
  present name := by simp [h.present, h.entered_iff, he]
  unique hi hj := by
    rw [h.entered_iff, he] at hi hj
    exact h.unique (by simpa using hi) (by simpa using hj)
  ordered := by simpa [h.entered_iff, he] using h.ordered

/-- What a history tells of a record goes on to be true with every change. -/
theorem change : Reflects (e.change.apply r) (past ++ [e]) := by
  cases he : e.change with
  | assigns name content => exact h.assign he
  | removes name => exact h.remove he
  | nothing => exact h.keep he

end Reflects

theorem reflects_result (steps : List Step) : Reflects (result [] steps) (events [] steps) := by
  induction steps using List.reverseRecOn with
  | nil => exact .empty
  | append_singleton steps s ih =>
    have hafter : (s.run (result [] steps)).2 =
        (Event.of (result [] steps) s).change.apply (result [] steps) := Event.after_of _ s
    rw [result_append_singleton, events_append_singleton, hafter]
    exact ih.change

/-! ### What single steps do -/

/-- A step answers with what was there, and leaves all other fields alone. -/
structure Event.Exact (e : Event) : Prop where
  previous_of_insert {name : String} {content : Value} :
    e.step = .insert name content → e.answer = .previous (e.before.get? name)
  previous_of_remove {name : String} :
    e.step = .remove name → e.answer = .previous (e.before.get? name)
  found {name : String} {content : Value} :
    e.step = .replace name content → e.answer = .found (decide (name ∈ names e.before))
  /-- A field may be set where the layout allows it. -/
  checked {schema : Schema} {type name : String} {content : Value} :
    e.step = .set schema type name content →
      e.answer = .checked ((schema.set type e.before name content).map fun _ => ())
  /-- If it does not, nothing is changed. -/
  unchanged {error : Error} : e.answer = .checked (.error error) → e.after = e.before
  after_eq : e.after = e.change.apply e.before
  /-- The other fields keep their content and their order. -/
  others_eq : e.after.others e.step.name = e.before.others e.step.name
  get?_of_ne {other : String} : other ≠ e.step.name → e.after.get? other = e.before.get? other

namespace Event

theorem others_of (r : Record) (s : Step) : (of r s).after.others s.name = r.others s.name := by
  rw [after_of]
  have htarget {name : String} : (of r s).change.target? = some name → name = s.name :=
    eq_name_of_target?
  cases hchange : (of r s).change with
  | assigns name content =>
    rw [← htarget (congrArg Change.target? hchange)]
    exact others_insert r name content
  | removes name =>
    rw [← htarget (congrArg Change.target? hchange)]
    exact others_without r name
  | nothing => rfl

theorem change_of_error {r : Record} {s : Step} {error : Error}
    (h : (of r s).answer = .checked (.error error)) : (of r s).change = .nothing := by
  unfold change
  rw [h]
  cases s with
  | insert name content => cases h
  | extend name content => cases h
  | _ => rfl

theorem exact_of (r : Record) (s : Step) : (of r s).Exact := by
  constructor
  case previous_of_insert =>
    rintro name content rfl
    rfl
  case previous_of_remove =>
    rintro name rfl
    exact congrArg Prod.fst (Step.run_remove r name)
  case found =>
    rintro name content rfl
    refine (congrArg Prod.fst (Step.run_replace r name content)).trans ?_
    by_cases hmem : name ∈ names r <;> simp [of, hmem]
  case checked =>
    rintro schema type name content rfl
    show ((Step.set schema type name content).run r).1 =
      .checked ((schema.set type r name content).map fun _ => ())
    rw [Step.run]
    cases schema.set type r name content <;> rfl
  case unchanged =>
    intro error h
    rw [after_of, change_of_error h]
    rfl
  case after_eq => exact after_of r s
  case others_eq => exact others_of r s
  case get?_of_ne =>
    intro other hne
    calc (of r s).after.get? other
      _ = ((of r s).after.others s.name).get? other := (get?_others hne).symm
      _ = (r.others s.name).get? other := by rw [others_of]
      _ = r.get? other := get?_others hne

end Event

/-! ### Sessions -/

/-- A record that is put together in any way has no field twice. Each field has the content that was
last assigned to it and not removed since, and the fields are in the order in which they came in
since they were last absent. Every step answers with what was there and leaves the other fields
alone. In a row of slots the same content is found, and the same comes of every step. -/
theorem reflects_events (steps : List Step) :
    Reflects (result [] steps) (events [] steps) ∧
      (∀ e ∈ events [] steps, e.Exact) ∧
      (∀ r name, Slots.get? r name = r.get? name) ∧
      ∀ (s : Step) (r : Record), s.runSlots r = s.run r := by
  refine ⟨reflects_result steps, fun e he => ?_, Slots.get?_eq, Step.runSlots_eq⟩
  obtain ⟨r, s, rfl⟩ := exists_of_mem_events he
  exact Event.exact_of r s

/-- A session with a route: the number of points cannot be set, and the points are removed, are not
there to be replaced, and come in again behind the starting point. -/
theorem reflects_events_route :
    let steps : List Step := [
      .set routeSchema "Route" "points" (.list [.record point]),
      .extend "start" (.record point),
      .set routeSchema "Route" "count" (.uint 5),
      .remove "points",
      .replace "points" (.list [.record point]),
      .insert "points" (.list [])]
    names (result [] steps) = ["start", "points"] ∧
      LastAssigned (events [] steps) "points" (.list []) ∧
      (∀ i j, Entered (events [] steps) "start" i → Entered (events [] steps) "points" j → i < j) ∧
      ∃ e ∈ events [] steps, e.step = .remove "points" ∧
        e.answer = .previous (some (.list [.record point])) := by
  intro steps
  obtain ⟨hreflects, hexact, -⟩ := reflects_events steps
  have hnames : names (result [] steps) = ["start", "points"] := by decide +kernel
  have hordered := hreflects.ordered
  rw [hnames, List.pairwise_pair] at hordered
  have he : Event.of [("points", .list [.record point]), ("start", .record point)]
      (.remove "points") ∈ events [] steps := .tail _ (.tail _ (.tail _ (.head _)))
  refine ⟨hnames, (hreflects.content _ _).1 rfl, hordered, _, he, rfl, ?_⟩
  exact (hexact _ he).previous_of_remove rfl

end Record

end WireSchema
