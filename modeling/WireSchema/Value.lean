import WireSchema.Bytes

/-!
# Values

A decoded structure is a `Record`: its content fields with their values, in the order in which they
were first assigned. A `Value` is the content of one field.

* `Record.get?`, `Record.insert`, `Record.replace?` and `Record.remove?` make a record a finite map
  that remembers its order of insertion.
* Sizes and counts that follow from other fields are never stored, so a value cannot disagree with
  its own encoding.
-/

namespace WireSchema

/-- The content of one field: a number, raw bytes, a nested structure or a run of items. -/
inductive Value where
  | uint (n : UInt64)
  | bytes (data : Bytes)
  | record (fields : List (String × Value))
  | list (items : List Value)
deriving Inhabited

/-- The fields of one structure, in the order of insertion. -/
abbrev Record := List (String × Value)

/-- The four kinds of content. -/
inductive ValueKind where
  | uint
  | bytes
  | record
  | list
deriving DecidableEq, Repr

/-- The word for a kind of content in messages. -/
def ValueKind.text : ValueKind → String
  | uint => "uint"
  | bytes => "bytes"
  | record => "structure"
  | list => "list"

namespace Value

/-- The kind of a value. -/
def kind : Value → ValueKind
  | uint _ => .uint
  | bytes _ => .bytes
  | record _ => .record
  | list _ => .list

/-- The number, if the value is one. -/
def asUInt? : Value → Option UInt64
  | uint n => some n
  | _ => none

/-- The bytes, if the value is a byte string. -/
def asBytes? : Value → Option Bytes
  | bytes data => some data
  | _ => none

/-- The fields, if the value is a nested structure. -/
def asRecord? : Value → Option Record
  | record fields => some fields
  | _ => none

/-- The items, if the value is a run of items. -/
def asList? : Value → Option (List Value)
  | list items => some items
  | _ => none

mutual

/-- Decides whether two values are the same, the order of fields included. -/
def same : Value → Value → Bool
  | uint a, uint b => a == b
  | bytes a, bytes b => a == b
  | record a, record b => sameFields a b
  | list a, list b => sameItems a b
  | _, _ => false

/-- Decides whether two lists of fields are the same. -/
def sameFields : List (String × Value) → List (String × Value) → Bool
  | [], [] => true
  | (m, a) :: as, (n, b) :: bs => m == n && same a b && sameFields as bs
  | _, _ => false

/-- Decides whether two lists of items are the same. -/
def sameItems : List Value → List Value → Bool
  | [], [] => true
  | a :: as, b :: bs => same a b && sameItems as bs
  | _, _ => false

end

instance : BEq Value := ⟨same⟩

end Value

namespace Record

/-- The content of the field `name`. -/
def get? (r : Record) (name : String) : Option Value :=
  match r with
  | [] => none
  | (n, v) :: rest => if n = name then some v else get? rest name

/-- Assigns the field `name`: in its place if it is present, at the end if it is not. -/
def insert (r : Record) (name : String) (content : Value) : Record :=
  match r with
  | [] => [(name, content)]
  | (n, v) :: rest =>
    if n = name then (n, content) :: rest else (n, v) :: insert rest name content

/-- The record with other content in the field `name`, if it is present. -/
def replace? (r : Record) (name : String) (content : Value) : Option Record :=
  match r.get? name with
  | some _ => some (r.insert name content)
  | none => none

/-- Takes the field `name` away, with its content. -/
def remove? (r : Record) (name : String) : Option (Value × Record) :=
  match r with
  | [] => none
  | (n, v) :: rest =>
    if n = name then some (v, rest)
    else (remove? rest name).map fun (content, rest) => (content, (n, v) :: rest)

/-- The field names in order. -/
def names (r : Record) : List String := r.map Prod.fst

/-- The record that results from assigning the given fields in turn. -/
def ofList (fields : List (String × Value)) : Record :=
  fields.foldl (fun r (name, content) => insert r name content) []

@[simp] theorem get?_nil (name : String) : get? [] name = none := rfl

@[simp] theorem get?_insert_self (r : Record) (name : String) (content : Value) :
    get? (insert r name content) name = some content := by
  induction r with
  | nil => simp [insert, get?]
  | cons p rest ih =>
    obtain ⟨n, v⟩ := p
    by_cases h : n = name <;> simp [insert, get?, h, ih]

theorem get?_insert_of_ne (r : Record) {name other : String} (content : Value)
    (h : other ≠ name) : get? (insert r name content) other = get? r other := by
  induction r with
  | nil => simp [insert, get?, Ne.symm h]
  | cons p rest ih =>
    obtain ⟨n, v⟩ := p
    by_cases hn : n = name
    · subst hn
      simp [insert, get?, Ne.symm h]
    · simp [insert, get?, hn, ih]

theorem get?_eq_none_iff (r : Record) (name : String) :
    get? r name = none ↔ name ∉ names r := by
  induction r with
  | nil => simp [names]
  | cons p rest ih =>
    obtain ⟨n, v⟩ := p
    by_cases h : n = name
    · simp [get?, names, h]
    · simp only [get?, h, if_false, ih]
      simp [names, Ne.symm h]

/-- The content of every field of a record without repetitions is found. -/
theorem get?_of_mem {r : Record} (h : (names r).Nodup) {p : String × Value} (hp : p ∈ r) :
    r.get? p.1 = some p.2 := by
  induction r with
  | nil => cases hp
  | cons q rest ih =>
    obtain ⟨n, v⟩ := q
    obtain ⟨hn, hrest⟩ := List.nodup_cons.1 h
    rcases List.mem_cons.1 hp with rfl | hmem
    · simp [get?]
    · have hname : p.1 ∈ names rest := List.mem_map_of_mem hmem
      have hne : n ≠ p.1 := by
        intro heq
        exact hn (heq.symm ▸ hname)
      rw [get?, if_neg hne]
      exact ih hrest hmem

/-- A field that was not present is appended. -/
theorem insert_of_get?_eq_none {r : Record} {name : String} (content : Value)
    (h : get? r name = none) : insert r name content = r ++ [(name, content)] := by
  induction r with
  | nil => rfl
  | cons p rest ih =>
    obtain ⟨n, v⟩ := p
    by_cases hn : n = name
    · simp [get?, hn] at h
    · simp only [get?, hn, if_false] at h
      simp [insert, hn, ih h]

theorem names_insert (r : Record) (name : String) (content : Value) :
    names (insert r name content) = if name ∈ names r then names r else names r ++ [name] := by
  induction r with
  | nil => simp [names, insert]
  | cons p rest ih =>
    obtain ⟨n, v⟩ := p
    by_cases hn : n = name
    · subst hn
      simp [names, insert]
    · simp only [names] at ih
      by_cases hm : name ∈ rest.map Prod.fst <;>
        simp [names, insert, hn, Ne.symm hn, ih, hm]

theorem nodup_names_insert {r : Record} (h : (names r).Nodup) (name : String) (content : Value) :
    (names (insert r name content)).Nodup := by
  rw [names_insert]
  split
  · exact h
  · next hm =>
    refine List.nodup_append.2 ⟨h, by simp, fun a ha b hb => ?_⟩
    rw [List.mem_singleton.1 hb]
    rintro rfl
    exact hm ha

theorem remove?_eq_none_iff (r : Record) (name : String) :
    remove? r name = none ↔ name ∉ names r := by
  induction r with
  | nil => simp [remove?, names]
  | cons p rest ih =>
    obtain ⟨n, v⟩ := p
    by_cases h : n = name
    · simp [remove?, names, h]
    · simp only [remove?, h, if_false, Option.map_eq_none_iff, ih]
      simp [names, Ne.symm h]

/-- The other fields keep their order. -/
theorem names_of_remove? {r rest : Record} {name : String} {content : Value}
    (h : remove? r name = some (content, rest)) : names rest = (names r).erase name := by
  induction r generalizing rest with
  | nil => simp [remove?] at h
  | cons p tail ih =>
    obtain ⟨n, v⟩ := p
    by_cases hn : n = name
    · simp only [remove?, hn, if_true, Option.some.injEq, Prod.mk.injEq] at h
      simp [names, hn, h.2]
    · simp only [remove?, hn, if_false, Option.map_eq_some_iff] at h
      obtain ⟨⟨c, r'⟩, hr, hc⟩ := h
      obtain ⟨rfl, rfl⟩ := Prod.mk.inj hc
      have ht : r'.map Prod.fst = (tail.map Prod.fst).erase name := ih hr
      simp [names, hn, ht]

end Record

end WireSchema
