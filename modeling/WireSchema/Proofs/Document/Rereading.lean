import WireSchema.Tool
import WireSchema.Document.Write
import WireSchema.Proofs.Json.Compact
import WireSchema.Proofs.Outcome

/-!
# Documents that are written and read again

What is left out where a document is written is what is taken for granted where it is read, and what
stands there has one meaning: a size that is a number is no name, even if the name is made of
digits, and every word stands for one alternative.

* `presentMembers`: the members of an object of which some may be absent. The writers of all parts of
  a document are described by them, and `Node.fields?_presentMembers` reads them back.
* `Attribute.ofNode?_toJson`, `Descriptor.ofNode?_toJson`: the parts of a document are read back.
* `Document.survives_text`: documents are read back from their text.
-/

namespace WireSchema

/-- What every item comes back from, the whole list comes back from. -/
theorem mapM_map_eq_some {α β : Type} {read : β → Option α} {write : α → β}
    (h : ∀ a, read (write a) = some a) (xs : List α) : (xs.map write).mapM read = some xs := by
  induction xs with
  | nil => rfl
  | cons a xs ih =>
    rw [List.map_cons, List.mapM_cons, h, ih]
    rfl

/-! ### Members that may be absent -/

/-- The members that are present, in order. -/
def presentMembers (members : List (String × Option Json)) : List (String × Json) :=
  members.flatMap fun m => optionalMember m.1 id m.2

section Present

variable {members : List (String × Option Json)} {name : String}

@[simp] theorem presentMembers_nil : presentMembers [] = [] := rfl

@[simp] theorem presentMembers_cons (m : String × Option Json)
    (members : List (String × Option Json)) :
    presentMembers (m :: members) = optionalMember m.1 id m.2 ++ presentMembers members :=
  List.flatMap_cons

@[simp] theorem optionalMember_map {α : Type} (name : String) (write : α → Json) (o : Option α) :
    optionalMember name id (o.map write) = optionalMember name write o := by
  cases o <;> rfl

@[simp] theorem optionalMember_some {α : Type} (name : String) (write : α → Json) (a : α) :
    optionalMember name write (some a) = [(name, write a)] := rfl

/-- The name of a member that is present is one of the names. -/
theorem mem_names_of_mem_presentMembers {m : String × Json} (h : m ∈ presentMembers members) :
    m.1 ∈ members.map Prod.fst := by
  obtain ⟨⟨name, o⟩, hmem, h⟩ := List.mem_flatMap.1 h
  cases o with
  | none => cases h
  | some v =>
    rw [List.mem_singleton.1 h]
    exact List.mem_map_of_mem hmem

/-- What is known of all values that members may have is known of the members that are present. -/
theorem forall_mem_presentMembers {P : Json → Prop} (h : ∀ m ∈ members, ∀ v ∈ m.2, P v) :
    ∀ m ∈ presentMembers members, P m.2 := by
  intro m hm
  obtain ⟨⟨name, o⟩, hmem, hm⟩ := List.mem_flatMap.1 hm
  cases o with
  | none => cases hm
  | some v =>
    rw [List.mem_singleton.1 hm]
    exact h _ hmem v rfl

theorem forall_mem_map {α : Type} {P : Json → Prop} {write : α → Json} (h : ∀ a, P (write a))
    (o : Option α) : ∀ v ∈ o.map write, P v := by
  intro v hv
  obtain ⟨a, -, rfl⟩ := Option.map_eq_some_iff.1 hv
  exact h a

theorem forall_mem_some {P : Json → Prop} {w : Json} (h : P w) : ∀ v ∈ some w, P v := by
  intro v hv
  cases hv
  exact h

end Present

namespace Node

theorem ofItems_eq_map (items : List Json) : ofItems items = items.map ofJson := by
  induction items with
  | nil => rfl
  | cons v rest ih =>
    unfold ofItems
    rw [List.map_cons, ih]

theorem ofMembers_eq_map (members : List (String × Json)) :
    ofMembers members = members.map fun m => (string m.1, ofJson m.2) := by
  induction members with
  | nil => rfl
  | cons m rest ih =>
    obtain ⟨name, v⟩ := m
    unfold ofMembers
    rw [List.map_cons, ih]

section Fields

variable {members : List (String × Option Json)} {name : String} {o : Option Json}

/-- A field is found among the members that are present, unless it is absent. -/
theorem field?_presentMembers (hnodup : (members.map Prod.fst).Nodup) (h : (name, o) ∈ members)
    (index : Nat) :
    field? (ofMembers (presentMembers members)) name index = some (o.map ofJson) := by
  obtain ⟨before, after, rfl⟩ := List.append_of_mem h
  rw [List.map_append, List.map_cons] at hnodup
  have hbefore : name ∉ before.map Prod.fst := fun hmem =>
    (List.nodup_append.1 hnodup).2.2 name hmem name List.mem_cons_self rfl
  have hafter : name ∉ after.map Prod.fst :=
    (List.nodup_cons.1 (List.nodup_append.1 hnodup).2.1).1
  have hothers : ∀ others : List (String × Option Json), name ∉ others.map Prod.fst →
      (ofMembers (presentMembers others)).filter (fun p => p.1.names name index) = [] := by
    intro others hothers
    rw [ofMembers_eq_map, List.filter_eq_nil_iff]
    intro p hp
    obtain ⟨m, hm, rfl⟩ := List.mem_map.1 hp
    have hne : m.1 ≠ name := fun heq => hothers (heq ▸ mem_names_of_mem_presentMembers hm)
    simpa [names] using hne
  have hfilter : (ofMembers (presentMembers (before ++ (name, o) :: after))).filter
      (fun p => p.1.names name index) = (ofMembers (optionalMember name id o)).filter
        (fun p => p.1.names name index) := by
    have hb := hothers before hbefore
    have ha := hothers after hafter
    rw [ofMembers_eq_map] at hb ha ⊢
    simp only [presentMembers, List.flatMap_append, List.flatMap_cons, List.map_append,
      List.filter_append] at hb ha ⊢
    rw [hb, ha, List.nil_append, List.append_nil, ofMembers_eq_map]
  unfold field?
  rw [hfilter]
  cases o with
  | none => rfl
  | some v => simp [optionalMember, ofMembers, names]

/-- The fields of an object are its members, some of which may be absent. -/
theorem fields?_presentMembers (hnodup : (members.map Prod.fst).Nodup) :
    (ofJson (.object (presentMembers members))).fields? (members.map Prod.fst) =
      some (members.map fun m => m.2.map ofJson) := by
  have hkeys : (ofMembers (presentMembers members)).all (fun p => p.1.isKey) = true := by
    rw [ofMembers_eq_map, List.all_eq_true]
    intro p hp
    obtain ⟨m, -, rfl⟩ := List.mem_map.1 hp
    rfl
  have hfields : ∀ (some' : List (String × Option Json)) (start : Nat), some' ⊆ members →
      ((some'.map Prod.fst).zipIdx start).mapM
        (fun p => field? (ofMembers (presentMembers members)) p.1 p.2) =
        some (some'.map fun m => m.2.map ofJson) := by
    intro some' start hsub
    induction some' generalizing start with
    | nil => rfl
    | cons m rest ih =>
      obtain ⟨hm, hrest⟩ := List.cons_subset.1 hsub
      have hfirst := field?_presentMembers hnodup hm start
      rw [List.map_cons, List.zipIdx_cons, List.mapM_cons, hfirst, ih (start + 1) hrest]
      rfl
  show mappingFields? _ (ofMembers (presentMembers members)) = _
  unfold mappingFields?
  rw [if_pos hkeys]
  exact hfields members 0 (List.Subset.refl members)

end Fields

section Parts

variable {α : Type}

/-- What is written of a part that may be absent is read back, as nothing is written as null. -/
theorem optional_map (read : Node → Option α) (write : α → Json)
    (hread : ∀ a, read (ofJson (write a)) = some a) (hnull : ∀ a, ofJson (write a) ≠ null)
    (o : Option α) : optional read ((o.map write).map ofJson) = some o := by
  cases o with
  | none => rfl
  | some a =>
    have hsome : optional read (some (ofJson (write a))) = (read (ofJson (write a))).map some := by
      unfold optional
      split
      · next h => cases h
      · next h => exact absurd (Option.some.inj h) (hnull a)
      · next h =>
        cases h
        rfl
    exact hsome.trans (by rw [hread]; rfl)

/-- A word that may be absent is read back, as it stands for what it was written for. -/
theorem optional_word (words : List (String × α)) (word : α → String)
    (hword : ∀ a, words.lookup (word a) = some a) (o : Option α) :
    optional (Node.word? words) ((o.map fun a => .string (word a)).map ofJson) = some o :=
  optional_map (Node.word? words) (fun a => .string (word a)) hword (fun _ => nofun) o

/-- The items of an array are read back one by one. -/
theorem mapM_ofItems {read : Node → Option α} {write : α → Json}
    (hread : ∀ a, read (ofJson (write a)) = some a) (items : List α) :
    (ofItems (items.map write)).mapM read = some items := by
  rw [ofItems_eq_map, List.map_map]
  exact mapM_map_eq_some hread items

end Parts

end Node

/-! ### The parts of a document -/

open Node

/-- A number and a name are told apart, whatever the name is made of. -/
theorem Size.ofNode?_toJson (s : Size) : Size.ofNode? (ofJson s.toJson) = some s := by
  cases s <;> rfl

/-- A name that is made of digits is no number. -/
example : Size.ofNode? (ofJson (Size.field "8").toJson) = some (.field "8") ∧
    Size.ofNode? (ofJson (Size.fixed 8).toJson) = some (.fixed 8) :=
  ⟨rfl, rfl⟩

theorem Size.printable_toJson (n : Nat) (s : Size) : Json.Printable n s.toJson := by
  cases s with
  | fixed size => exact .uint n size
  | field name => exact .string n name

theorem Label.ofNode?_toJson (label : Label) : Label.ofNode? (ofJson label.toJson) = some label := by
  have hfields : (ofJson label.toJson).fields? Label.fieldNames =
      some [some (.string label.name), some (.uint label.value)] :=
    @fields?_presentMembers [("name", some (.string label.name)),
      ("value", some (.uint label.value))] (show Label.fieldNames.Nodup by decide)
  unfold Label.ofNode?
  rw [hfields]
  rfl

theorem Label.printable_toJson (n : Nat) (label : Label) : Json.Printable (n + 1) label.toJson := by
  refine .object fun m hm => ?_
  simp only [List.mem_cons, List.not_mem_nil, or_false] at hm
  rcases hm with rfl | rfl
  · exact .string n label.name
  · exact .uint n label.value

namespace Attribute

/-- The members of an attribute, present or absent. -/
def members (a : Attribute) : List (String × Option Json) :=
  [("name", a.name.map .string), ("type", some (.string a.type)), ("size", a.size.map Size.toJson),
    ("sizing", a.sizing.map fun s => .string s.word),
    ("disposition", a.disposition.map fun d => .string d.word), ("value", a.value.map .uint),
    ("signedness", a.signedness.map fun s => .string s.word)]

theorem toJson_eq (a : Attribute) : a.toJson = .object (presentMembers a.members) := by
  simp [toJson, members, List.append_assoc]

theorem ofNode?_toJson (a : Attribute) : ofNode? (ofJson a.toJson) = some a := by
  have hfields : (ofJson a.toJson).fields? fieldNames =
      some (a.members.map fun m => m.2.map ofJson) := by
    rw [toJson_eq]
    exact @fields?_presentMembers a.members (show fieldNames.Nodup by decide)
  have hname := optional_map asString? .string (fun _ => rfl) (fun _ => nofun) a.name
  have hsize := optional_map Size.ofNode? Size.toJson Size.ofNode?_toJson
    (fun s => by cases s <;> exact nofun) a.size
  have hsizing := optional_word Sizing.words Sizing.word Sizing.lookup_word a.sizing
  have hdisposition := optional_word Disposition.words Disposition.word Disposition.lookup_word
    a.disposition
  have hvalue := optional_map asUInt? .uint (fun _ => rfl) (fun _ => nofun) a.value
  have hsignedness := optional_word Signedness.words Signedness.word Signedness.lookup_word
    a.signedness
  unfold ofNode?
  rw [hfields]
  simp only [members, List.map_cons, List.map_nil, Option.map_some, Option.bind_eq_bind,
    Option.bind_some, hname, hsize, hsizing, hdisposition, hvalue, hsignedness]
  rfl

theorem printable_members (n : Nat) (a : Attribute) :
    ∀ m ∈ a.members, ∀ v ∈ m.2, Json.Printable n v := by
  simp only [members, List.forall_mem_cons]
  exact ⟨forall_mem_map (.string n) _, forall_mem_some (.string n _),
    forall_mem_map (Size.printable_toJson n) _, forall_mem_map (fun _ => .string n _) _,
    forall_mem_map (fun _ => .string n _) _, forall_mem_map (.uint n) _,
    forall_mem_map (fun _ => .string n _) _, nofun⟩

theorem printable_toJson (n : Nat) (a : Attribute) : Json.Printable (n + 1) a.toJson := by
  rw [toJson_eq]
  exact .object (forall_mem_presentMembers (a.printable_members n))

end Attribute

namespace Descriptor

/-- The kind of a descriptor. -/
def tag : Descriptor → DescriptorTag
  | byte _ _ => .byte
  | enum _ _ => .enum
  | struct _ => .struct

/-- The members of a descriptor beside its kind, present or absent. -/
def members : Descriptor → List (String × Option Json)
  | byte size signedness =>
    [("size", some (.uint size)), ("signedness", signedness.map fun s => .string s.word)]
  | enum size labels =>
    [("size", some (.uint size)),
      ("values", if labels = [] then none else some (.array (labels.map Label.toJson)))]
  | struct layout => [("layout", some (.array (layout.map Attribute.toJson)))]

theorem toJson_eq (d : Descriptor) :
    d.toJson = .object (d.tag.member :: presentMembers d.members) := by
  cases d with
  | byte size signedness => simp [toJson, tag, members]
  | enum size labels => cases labels <;> simp [toJson, tag, members, optionalMember]
  | struct layout => simp [toJson, tag, members]

theorem names_members (d : Descriptor) : d.members.map Prod.fst = d.tag.fieldNames := by
  cases d <;> rfl

/-- A descriptor is read by its kind from its other members. -/
theorem ofNode?_object (t : DescriptorTag) {members : List (String × Option Json)}
    (hnames : members.map Prod.fst = t.fieldNames) :
    ofNode? (ofJson (.object (t.member :: presentMembers members))) =
      ofFields? t (members.map fun m => m.2.map ofJson) := by
  have htag : tagKey ∉ t.fieldNames ∧ t.fieldNames.Nodup := by
    cases t <;> decide
  have hothers : ∀ p ∈ ofMembers (presentMembers members), isTag p.1 = false := by
    intro p hp
    rw [ofMembers_eq_map] at hp
    obtain ⟨m, hm, rfl⟩ := List.mem_map.1 hp
    have hne : m.1 ≠ tagKey := by
      intro heq
      rw [← hnames] at htag
      exact htag.1 (heq ▸ mem_names_of_mem_presentMembers hm)
    simpa [isTag, asString?] using hne
  have hself : isTag (.string tagKey) = true := by
    simp [isTag, asString?]
  have hkinds : (ofMembers (t.member :: presentMembers members)).filter (fun p => isTag p.1) =
      [(.string tagKey, .string t.word)] := by
    have hnone : (ofMembers (presentMembers members)).filter (fun p => isTag p.1) = [] :=
      List.filter_eq_nil_iff.2 fun p hp => by rw [hothers p hp]; decide
    show ((Node.string tagKey, Node.string t.word) :: ofMembers (presentMembers members)).filter
      (fun p => isTag p.1) = _
    rw [List.filter_cons, if_pos hself, hnone]
  have hrest : (ofMembers (t.member :: presentMembers members)).filter (fun p => !isTag p.1) =
      ofMembers (presentMembers members) := by
    show ((Node.string tagKey, Node.string t.word) :: ofMembers (presentMembers members)).filter
      (fun p => !isTag p.1) = _
    rw [List.filter_cons, if_neg (by simp [hself])]
    exact List.filter_eq_self.2 fun p hp => by rw [hothers p hp]; rfl
  have hfields : (mapping (ofMembers (presentMembers members))).fields? t.fieldNames =
      some (members.map fun m => m.2.map ofJson) := by
    rw [← hnames]
    exact fields?_presentMembers (hnames ▸ htag.2)
  show ofNode? (mapping (ofMembers (t.member :: presentMembers members))) = _
  simp only [ofNode?, hkinds, hrest, tag?, asString?, Option.bind_eq_bind, Option.bind_some,
    DescriptorTag.lookup_word, hfields]

theorem ofNode?_toJson (d : Descriptor) : ofNode? (ofJson d.toJson) = some d := by
  rw [toJson_eq, ofNode?_object d.tag d.names_members]
  cases d with
  | byte size signedness =>
    have hsignedness := optional_word Signedness.words Signedness.word Signedness.lookup_word
      signedness
    show (do return Descriptor.byte size (← optional (Node.word? Signedness.words) _)) = _
    rw [hsignedness]
    rfl
  | enum size labels =>
    have hlabels := mapM_ofItems Label.ofNode?_toJson labels
    cases labels with
    | nil => rfl
    | cons label rest =>
      show (do return Descriptor.enum size (← (ofItems _).mapM Label.ofNode?)) = _
      rw [hlabels]
      rfl
  | struct layout =>
    have hlayout := mapM_ofItems Attribute.ofNode?_toJson layout
    show (do return Descriptor.struct (← (ofItems _).mapM Attribute.ofNode?)) = _
    rw [hlayout]
    rfl

theorem printable_members (d : Descriptor) : ∀ m ∈ d.members, ∀ v ∈ m.2, Json.Printable 2 v := by
  cases d with
  | byte size signedness =>
    simp only [members, List.forall_mem_cons]
    exact ⟨forall_mem_some (.uint 2 size), forall_mem_map (fun _ => .string 2 _) _, nofun⟩
  | enum size labels =>
    have hlabels : Json.Printable 2 (.array (labels.map Label.toJson)) :=
      .array (List.forall_mem_map.2 fun label _ => label.printable_toJson 0)
    simp only [members, List.forall_mem_cons]
    refine ⟨forall_mem_some (.uint 2 size), ?_, nofun⟩
    split
    · exact nofun
    · exact forall_mem_some hlabels
  | struct layout =>
    have hlayout : Json.Printable 2 (.array (layout.map Attribute.toJson)) :=
      .array (List.forall_mem_map.2 fun a _ => a.printable_toJson 0)
    simp only [members, List.forall_mem_cons]
    exact ⟨forall_mem_some hlayout, nofun⟩

theorem printable_toJson (d : Descriptor) : Json.Printable 3 d.toJson := by
  rw [toJson_eq]
  exact .object (List.forall_mem_cons.2
    ⟨.string 2 _, forall_mem_presentMembers d.printable_members⟩)

end Descriptor

/-! ### Documents -/

namespace Document

theorem place_append {types : List (String × Descriptor)} {name : String}
    (h : ∀ p ∈ types, p.1 < name) (descriptor : Descriptor) :
    place name descriptor types = types ++ [(name, descriptor)] := by
  induction types with
  | nil => rfl
  | cons p rest ih =>
    obtain ⟨hp, hrest⟩ := List.forall_mem_cons.1 h
    have hne : name ≠ p.1 := fun heq => String.lt_irrefl name (heq ▸ hp)
    have hlt : ¬name < p.1 := String.lt_asymm hp
    simp only [place, if_neg hne, if_neg hlt, ih hrest, List.cons_append]

/-- Types that are in order are kept as they are. -/
theorem types_foldl_insert (d : Document) {types : List (String × Descriptor)}
    (h : (d.types ++ types).Pairwise (·.1 < ·.1)) :
    (types.foldl (fun d (p : String × Descriptor) => d.insert p.1 p.2) d).types =
      d.types ++ types := by
  induction types generalizing d with
  | nil => exact (List.append_nil d.types).symm
  | cons p rest ih =>
    have hinsert : (d.insert p.1 p.2).types = d.types ++ [p] :=
      place_append (fun q hq => (List.pairwise_append.1 h).2.2 q hq p List.mem_cons_self) p.2
    have hrest := ih (d.insert p.1 p.2)
    rw [hinsert, List.append_assoc, List.singleton_append] at hrest
    exact hrest h

/-- A document is its types. -/
theorem eq_of_types {d d' : Document} (h : d.types = d'.types) : d = d' := by
  obtain ⟨types, _⟩ := d
  obtain ⟨types', _⟩ := d'
  cases h
  rfl

theorem ofList_types (d : Document) : ofList d.types = d :=
  eq_of_types (types_foldl_insert empty d.sorted)

theorem ofJsonValue?_toJson (d : Document) : ofJsonValue? d.toJson = some d := by
  let entry (p : String × Descriptor) : String × Node := (p.1, ofJson p.2.toJson)
  let entry? (q : String × Node) : Option (String × Descriptor) := do
    return (q.1, ← Descriptor.ofNode? q.2)
  have hentry (p : String × Descriptor) : entry? (entry p) = some p := by
    show (do return (p.1, ← Descriptor.ofNode? (ofJson p.2.toJson))) = some p
    rw [Descriptor.ofNode?_toJson]
    rfl
  have hmap : ofJsonValue? d.toJson = (do return ofList (← (d.types.map entry).mapM entry?)) := by
    show ofEntries? (List.map _ (List.map _ d.types)) = _
    rw [List.map_map]
    rfl
  rw [hmap, mapM_map_eq_some hentry]
  exact congrArg some d.ofList_types

theorem printable_toJson (d : Document) : Json.Printable 4 d.toJson :=
  .object (List.forall_mem_map.2 fun p _ => p.2.printable_toJson)

/-- A document is read back from its text. -/
theorem ofJson?_text (d : Document) : ofJson? d.text = some d := by
  have hparse : Json.parse? d.text = some d.toJson := d.printable_toJson.parse?_compact (by decide)
  unfold ofJson?
  rw [hparse]
  exact d.ofJsonValue?_toJson

/-- A text that is read as a document, as the document is written. -/
def rewritten? (text : String) : Option String := (ofJson? text).map Document.text

/-- Documents survive that they are written: what is read of a text is the document that was
written, so no two documents have the same text, a text that is read and written over is read as
before and stays as it is from then on, and what a text resolves to is what its document does. -/
theorem survives_text :
    (∀ d, ofJson? d.text = some d) ∧ Function.Injective Document.text ∧
      (∀ text, (rewritten? text).bind ofJson? = ofJson? text) ∧
        (∀ text, (rewritten? text).bind rewritten? = rewritten? text) ∧
          ∀ d, Schema.ofJson d.text = Schema.resolve d := by
  have hread (text : String) : (rewritten? text).bind ofJson? = ofJson? text := by
    unfold rewritten?
    cases ofJson? text with
    | none => rfl
    | some d => exact d.ofJson?_text
  refine ⟨ofJson?_text, ?_, hread, ?_, ?_⟩
  · intro d d' h
    have hd := d.ofJson?_text
    rw [h, ofJson?_text] at hd
    exact (Option.some.inj hd).symm
  · intro text
    calc (rewritten? text).bind rewritten?
      _ = ((rewritten? text).bind ofJson?).map Document.text := by
        cases rewritten? text <;> rfl
      _ = rewritten? text := by
        rw [hread]
        rfl
  · intro d
    unfold Schema.ofJson
    rw [ofJson?_text]
    rfl

end Document

end WireSchema
