import WireSchema.Proofs.Codec.Extraction

/-!
# Records as rows of slots

A record is kept as a row of slots, each with a name and some content. A field is looked for from
the front, and once its place is known the slot is changed or taken out there. This is what the
operations on records do, and all of them leave the slots of other fields alone.

* `Record.Parts`: where the first field of a name stands, and what the operations do there.
* `Record.without` and `Record.others`: a record without a field, and the fields of other names.
* `Record.Slots`: the operations by places.
-/

namespace WireSchema

namespace Record

/-! ### The place of a field -/

/-- The first field of the name stands between the given parts of the record. -/
structure Parts (r front : Record) (name : String) (content : Value) (back : Record) : Prop where
  eq_append : r = front ++ (name, content) :: back
  first : name ∉ names front

theorem notMem_names_cons {r : Record} {n name : String} {v : Value} :
    name ∉ names ((n, v) :: r) ↔ n ≠ name ∧ name ∉ names r := by
  rw [names, List.map_cons, List.mem_cons, not_or, ne_comm]
  rfl

theorem exists_parts {r : Record} {name : String} (h : name ∈ names r) :
    ∃ front content back, Parts r front name content back := by
  induction r with
  | nil => cases h
  | cons p rest ih =>
    obtain ⟨n, v⟩ := p
    by_cases hn : n = name
    · subst hn
      exact ⟨[], v, rest, rfl, List.not_mem_nil⟩
    · have hrest : name ∈ names rest := (List.mem_cons.1 h).resolve_left (Ne.symm hn)
      obtain ⟨front, content, back, rfl, hfirst⟩ := ih hrest
      exact ⟨(n, v) :: front, content, back, rfl, notMem_names_cons.2 ⟨hn, hfirst⟩⟩

namespace Parts

variable {r front back : Record} {name : String} {content : Value}
  (h : Parts r front name content back)
include h

theorem get?_eq : r.get? name = some content := by
  rw [h.eq_append, get?_append, (get?_eq_none_iff ..).2 h.first, get?, if_pos rfl]
  rfl

theorem insert_eq (other : Value) : r.insert name other = front ++ (name, other) :: back := by
  obtain ⟨rfl, hfirst⟩ := h
  induction front with
  | nil => exact if_pos rfl
  | cons p front ih =>
    obtain ⟨n, v⟩ := p
    obtain ⟨hne, hrest⟩ := notMem_names_cons.1 hfirst
    rw [List.cons_append, insert, if_neg hne, ih hrest]
    rfl

theorem remove?_eq : r.remove? name = some (content, front ++ back) := by
  obtain ⟨rfl, hfirst⟩ := h
  induction front with
  | nil => exact if_pos rfl
  | cons p front ih =>
    obtain ⟨n, v⟩ := p
    obtain ⟨hne, hrest⟩ := notMem_names_cons.1 hfirst
    rw [List.cons_append, remove?, if_neg hne, ih hrest]
    rfl

end Parts

/-- The record without the field `name`. -/
def without (r : Record) (name : String) : Record :=
  match r.remove? name with
  | some (_, rest) => rest
  | none => r

theorem Parts.without_eq {r front back : Record} {name : String} {content : Value}
    (h : Parts r front name content back) : r.without name = front ++ back := by
  rw [without, h.remove?_eq]

theorem without_of_notMem {r : Record} {name : String} (h : name ∉ names r) :
    r.without name = r := by
  rw [without, (remove?_eq_none_iff r name).2 h]

theorem mem_names_insert {r : Record} {name other : String} {content : Value} :
    other ∈ names (r.insert name content) ↔ other = name ∨ other ∈ names r := by
  rw [names_insert]
  split
  · next hmem => exact ⟨.inr, fun h => h.elim (fun heq => heq ▸ hmem) id⟩
  · rw [List.mem_append, List.mem_singleton, or_comm]

theorem names_without (r : Record) (name : String) :
    names (r.without name) = (names r).erase name := by
  by_cases hmem : name ∈ names r
  · obtain ⟨front, content, back, h⟩ := exists_parts hmem
    rw [h.without_eq]
    exact names_of_remove? h.remove?_eq
  · rw [without_of_notMem hmem, List.erase_of_not_mem hmem]

/-! ### The other fields -/

/-- The fields of other names, with their content and in their order. -/
def others (r : Record) (name : String) : Record := r.filter fun p => p.1 != name

theorem get?_others {r : Record} {name other : String} (h : other ≠ name) :
    (r.others name).get? other = r.get? other := by
  refine (get?_filter r (· != name) other).trans (if_pos ?_)
  exact bne_iff_ne.2 h

theorem others_append (front back : Record) (name : String) (content : Value) :
    others (front ++ (name, content) :: back) name = others (front ++ back) name := by
  simp [others]

theorem others_insert (r : Record) (name : String) (content : Value) :
    (r.insert name content).others name = r.others name := by
  by_cases hmem : name ∈ names r
  · obtain ⟨front, old, back, h⟩ := exists_parts hmem
    rw [h.insert_eq, others_append, h.eq_append, others_append]
  · rw [insert_of_get?_eq_none content ((get?_eq_none_iff r name).2 hmem), others_append,
      List.append_nil]

theorem others_without (r : Record) (name : String) :
    (r.without name).others name = r.others name := by
  by_cases hmem : name ∈ names r
  · obtain ⟨front, old, back, h⟩ := exists_parts hmem
    rw [h.without_eq, h.eq_append, others_append]
  · rw [without_of_notMem hmem]

/-! ### A row of slots -/

namespace Slots

/-- The content of the first field of the name. -/
def get? (r : Record) (name : String) : Option Value :=
  (r.find? fun p => p.1 == name).map Prod.snd

/-- The place of the first field of the name. -/
def place? (r : Record) (name : String) : Option Nat := r.findIdx? fun p => p.1 == name

/-- What is in a slot. -/
def contentAt? (r : Record) (i : Nat) : Option Value := r[i]?.map Prod.snd

/-- Puts other content into a slot, which keeps its name. -/
def put (r : Record) (i : Nat) (content : Value) : Record := r.modify i fun p => (p.1, content)

/-- Assigns the field `name` in its slot and gives back what was in it, or adds a slot. -/
def insert (r : Record) (name : String) (content : Value) : Option Value × Record :=
  match place? r name with
  | some i => (contentAt? r i, put r i content)
  | none => (none, r ++ [(name, content)])

/-- Assigns the field `name` if it has a slot. -/
def replace? (r : Record) (name : String) (content : Value) : Option Record :=
  (place? r name).map fun i => put r i content

/-- Takes the slot of the field `name` out of the row and gives back what was in it. -/
def remove (r : Record) (name : String) : Option Value × Record :=
  match place? r name with
  | some i => (contentAt? r i, r.eraseIdx i)
  | none => (none, r)

section Lemmas

variable {r front back : Record} {name : String} {content : Value}

theorem place?_of_notMem (h : name ∉ names r) : place? r name = none := by
  refine List.findIdx?_eq_none_iff.2 fun p hp => beq_eq_false_iff_ne.2 ?_
  rintro rfl
  exact h (List.mem_map_of_mem hp)

theorem place?_of_parts (h : Parts r front name content back) :
    place? r name = some front.length := by
  have hfront := place?_of_notMem h.first
  unfold place? at hfront ⊢
  rw [h.eq_append, List.findIdx?_append, hfront, List.findIdx?_cons]
  simp

theorem contentAt?_of_parts (h : Parts r front name content back) :
    contentAt? r front.length = some content := by
  rw [contentAt?, h.eq_append, List.getElem?_append_right (Nat.le_refl _), Nat.sub_self]
  rfl

theorem put_of_parts (h : Parts r front name content back) (other : Value) :
    put r front.length other = front ++ (name, other) :: back := by
  rw [put, h.eq_append, List.modify_eq_take_drop, List.take_left, List.drop_left]
  rfl

/-- The first field that is found is the one that is looked for. -/
theorem get?_eq (r : Record) (name : String) : get? r name = r.get? name := by
  induction r with
  | nil => rfl
  | cons p rest ih =>
    obtain ⟨n, v⟩ := p
    unfold get? at ih ⊢
    by_cases h : n = name <;> simp [Record.get?, h, ih]

/-- What is given back is what the record held. -/
theorem insert_eq (r : Record) (name : String) (content : Value) :
    insert r name content = (r.get? name, r.insert name content) := by
  unfold insert
  by_cases hmem : name ∈ names r
  · obtain ⟨front, old, back, h⟩ := exists_parts hmem
    rw [place?_of_parts h, h.get?_eq, h.insert_eq]
    exact Prod.ext (contentAt?_of_parts h) (put_of_parts h content)
  · have hnone := (get?_eq_none_iff r name).2 hmem
    rw [place?_of_notMem hmem, hnone, insert_of_get?_eq_none content hnone]

theorem replace?_eq (r : Record) (name : String) (content : Value) :
    replace? r name content = r.replace? name content := by
  unfold replace? Record.replace?
  by_cases hmem : name ∈ names r
  · obtain ⟨front, old, back, h⟩ := exists_parts hmem
    rw [place?_of_parts h, h.get?_eq, h.insert_eq]
    exact congrArg some (put_of_parts h content)
  · rw [place?_of_notMem hmem, (get?_eq_none_iff r name).2 hmem]
    rfl

theorem remove_eq (r : Record) (name : String) :
    remove r name = (r.get? name, r.without name) := by
  unfold remove
  by_cases hmem : name ∈ names r
  · obtain ⟨front, old, back, h⟩ := exists_parts hmem
    rw [place?_of_parts h, h.get?_eq, h.without_eq]
    refine Prod.ext (contentAt?_of_parts h) ?_
    show r.eraseIdx front.length = front ++ back
    rw [h.eq_append, List.eraseIdx_append_of_length_le (Nat.le_refl _), Nat.sub_self]
    rfl
  · rw [place?_of_notMem hmem, (get?_eq_none_iff r name).2 hmem, without_of_notMem hmem]

end Lemmas

end Slots

end Record

end WireSchema
