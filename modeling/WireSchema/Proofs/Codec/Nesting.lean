import WireSchema.Codec.Decode
import WireSchema.Codec.Encode
import WireSchema.Proofs.Resolve.Closure
import WireSchema.Proofs.Resolve.Dependency

/-!
# How deep structures nest

What is done with a structure is done with the structures that it refers to in turn, which are
looked up by their names. `byName` is one call of such a recursion, and nothing in it keeps a
structure from being entered again from within. It comes to an end because the schema is layered:
every call goes to a deeper layer, whatever the input or the value is, so no more calls are nested
than there are structures. Encoding a value from which nested structures are missing is no
exception, though it puts an empty record in the place of each.

* `Decode.local_structure?`, `Encode.local_encoder`: reading and writing look no further than the
  structures that the fields refer to.
* `Layered.iterate_byName`: a recursion by name comes to its end within that many calls.
* `recursion_ends`: so do reading and writing with any resolved schema, and resolving any document.
-/

namespace WireSchema

/-! ### Reading and writing look up what is referred to -/

section Locality

/-- Two ways to do with nested structures what a kind of field refers to are the same. -/
def FieldKind.Agree {β : Type} (kind : FieldKind) (nested nested' : String → β) : Prop :=
  ∀ type ∈ kind.references, nested type = nested' type

theorem FieldKind.Agree.item {β : Type} {nested nested' : String → β} {type : String}
    {cardinality : Cardinality}
    (h : (FieldKind.repeated (.struct type) cardinality).Agree nested nested') :
    nested type = nested' type :=
  h type (List.mem_singleton_self type)

namespace Decode

variable {nested nested' : String → Reader Record} {limits : Limits} {owner : Structure}
  {frame : Frame}

theorem element_congr {item : Element} {cardinality : Cardinality}
    (h : (FieldKind.repeated item cardinality).Agree nested nested') :
    element nested item = element nested' item := by
  cases item with
  | struct type => simp only [element, h.item]
  | scalar width => rfl
  | blob size => rfl

theorem content_congr {kind : FieldKind} (h : kind.Agree nested nested') :
    content nested limits owner frame kind = content nested' limits owner frame kind := by
  cases kind with
  | embedded type => simp only [content, h type (List.mem_singleton_self type)]
  | repeated item cardinality =>
    have hitem := element_congr h
    cases cardinality <;> simp only [content, group, hitem]
  | _ => rfl

theorem fields_congr {fs : List Field} (h : ∀ f ∈ fs, f.kind.Agree nested nested')
    (frame : Frame) :
    fields nested limits owner fs frame = fields nested' limits owner fs frame := by
  induction fs generalizing frame with
  | nil => rfl
  | cons f rest ih =>
    have hrest := ih fun g hg => h g (List.mem_cons_of_mem _ hg)
    have hfirst := h f List.mem_cons_self
    unfold fields
    split
    · simp only [hrest]
    · simp only [hrest, content_congr hfirst]

theorem local_structure? (limits : Limits) : Local (structure? limits) :=
  fun _ _ _ h => fields_congr h []

end Decode

namespace Encode

variable {nested nested' : String → Encoder} {s : Structure} {f : Field}

theorem addSizes_congr {α : Type} {size size' : α → Except Error Nat} {total : Nat} {xs : List α}
    (h : ∀ x ∈ xs, size x = size' x) : addSizes size total xs = addSizes size' total xs := by
  induction xs generalizing total with
  | nil => rfl
  | cons x xs ih =>
    simp only [addSizes, h x List.mem_cons_self, ih fun y hy => h y (List.mem_cons_of_mem _ hy)]

theorem itemSize_congr {item : Element} {cardinality : Cardinality}
    (h : (FieldKind.repeated item cardinality).Agree nested nested') :
    itemSize nested s f item = itemSize nested' s f item := by
  funext content
  cases item with
  | struct type => cases content <;> simp only [itemSize, h.item]
  | scalar width => cases content <;> rfl
  | blob size => cases content <;> rfl

theorem fieldSize_congr (h : f.kind.Agree nested nested') (content : Option Value) :
    fieldSize nested s f content = fieldSize nested' s f content := by
  unfold fieldSize
  cases hk : f.kind with
  | embedded type =>
    rw [hk] at h
    simp only [h type (List.mem_singleton_self type)]
  | repeated item cardinality =>
    rw [hk] at h
    simp only [itemSize_congr h]
  | _ => rfl

theorem item_congr {element : Element} {cardinality : Cardinality}
    (h : (FieldKind.repeated element cardinality).Agree nested nested') :
    item nested s f element = item nested' s f element := by
  funext content
  cases element with
  | struct type => cases content <;> simp only [item, h.item]
  | scalar width => cases content <;> rfl
  | blob size => cases content <;> rfl

theorem checkItem_congr {item : Element} {cardinality : Cardinality}
    (h : (FieldKind.repeated item cardinality).Agree nested nested') :
    checkItem nested s f item = checkItem nested' s f item := by
  funext content
  cases item with
  | struct type => cases content <;> simp only [checkItem, h.item]
  | scalar width => cases content <;> rfl
  | blob size => cases content <;> rfl

section

variable (h : ∀ f ∈ s.fields, f.kind.Agree nested nested')
include h

theorem size_congr : size nested s = size nested' s := by
  funext r
  unfold size
  cases s.fixedSize with
  | some n => rfl
  | none => exact addSizes_congr fun f hf => fieldSize_congr (h f hf) (r.get? f.name)

/-- What a derived field describes is a field of the structure. -/
theorem derive_congr (r : Record) (content : String) (rule : Derivation) :
    derive nested s r content rule = derive nested' s r content rule := by
  cases rule with
  | byteLength => rfl
  | itemCount => rfl
  | groupSize =>
    unfold derive field Structure.field?
    cases hf : s.fields.find? (·.name = content) with
    | none => rfl
    | some f => exact fieldSize_congr (h f (List.mem_of_find?_eq_some hf)) _

theorem derived_congr : derived nested s = derived nested' s := by
  funext r name
  simp only [derived, derive_congr h]

theorem fieldBytes_congr (r : Record) {f : Field} (hf : f ∈ s.fields) :
    fieldBytes nested s r f = fieldBytes nested' s r f := by
  have hkind := h f hf
  unfold fieldBytes
  cases hk : f.kind with
  | embedded type =>
    rw [hk] at hkind
    simp only [hkind type (List.mem_singleton_self type)]
  | repeated item cardinality =>
    rw [hk] at hkind
    simp only [item_congr hkind]
  | derived width content rule => simp only [derive_congr h]
  | _ => rfl

theorem write_congr : write nested s = write nested' s := by
  funext r
  simp only [write, mapM_congr fun f hf => fieldBytes_congr h r hf]

theorem check_congr : check nested s = check nested' s := by
  funext name content
  unfold check field Structure.field?
  cases hf : s.fields.find? (·.name = name) with
  | none => rfl
  | some f =>
    have hkind := h f (List.mem_of_find?_eq_some hf)
    cases hk : f.kind with
    | embedded type =>
      rw [hk] at hkind
      cases content <;>
        simp only [bind, Except.bind, hk, hkind type (List.mem_singleton_self type)]
    | repeated item cardinality =>
      rw [hk] at hkind
      cases content <;> simp only [bind, Except.bind, hk, checkItem_congr hkind]
    | _ => cases content <;> simp only [bind, Except.bind, hk]

end

theorem local_encoder : Local encoder := by
  intro s nested nested' h
  simp only [encoder, size_congr h, write_congr h, derived_congr h, check_congr h]

end Encode

end Locality

/-! ### Recursion by name -/

section ByName

variable {β : Type} (unknown : String → β) (step : (String → β) → Structure → β)

/-- One call of a recursion by name: the structure is looked up, and `recur` stands in place of the
calls for the structures that it refers to. -/
def byName (structures : List Structure) (recur : String → β) (name : String) : β :=
  match findStructure? structures name with
  | some s => step recur s
  | none => unknown name

variable {structures : List Structure}

theorem byName_of_find {recur : String → β} {name : String} {s : Structure}
    (hs : findStructure? structures name = some s) :
    byName unknown step structures recur name = step recur s := by
  rw [byName, hs]

variable {unknown step}

/-- Calls that are nested as deep as the layer of a structure come to its meaning, whatever the
calls beyond them would do. -/
theorem Layered.iterate_byName (h : Layered structures) (hlocal : Local step) {depth : Nat}
    {name : String} (hname : (findStructure? structures name).isSome)
    (hdepth : layer structures name ≤ depth) (beyond : String → β) :
    (byName unknown step structures)^[depth] beyond name =
      interpret unknown step structures name := by
  induction depth generalizing name with
  | zero =>
    have := layer_pos hname
    omega
  | succ depth ih =>
    obtain ⟨s, hs⟩ := Option.isSome_iff_exists.1 hname
    rw [Function.iterate_succ_apply', byName_of_find unknown step hs,
      h.interpret_of_find unknown step hlocal hs]
    refine hlocal s _ _ fun f hf type ht => ?_
    have hmem := mem_of_findStructure? hs
    have hdeeper := h.layer_lt_of_reference hmem hf ht
    rw [name_of_findStructure? hs] at hdeeper
    exact ih ((h.sound hmem).references f hf type ht) (by omega)

end ByName

/-! ### Resolved schemas -/

/-- The structures are ranked in such a way that each ranks above those that its fields refer to. -/
structure Schema.Ranked (schema : Schema) (rank : String → Nat) : Prop where
  bounded : ∀ name, rank name ≤ schema.structures.length
  decreases : ∀ s ∈ schema.structures, ∀ f ∈ s.fields, ∀ type ∈ f.kind.references,
    rank type < rank s.name

/-- For each structure of the schema, `depth` nested calls are enough for reading and for what is
done with values, whatever the calls beyond them would do. -/
structure Schema.EndsWithin (schema : Schema) (depth : Nat) : Prop where
  read : ∀ limits name, (schema.structure? name).isSome → ∀ beyond,
    (byName (fun name => throw (.malformed (.unknownStructure name))) (Decode.structure? limits)
      schema.structures)^[depth] beyond name = schema.read limits name
  encoder : ∀ name, (schema.structure? name).isSome → ∀ beyond,
    (byName Encoder.unknown Encode.encoder schema.structures)^[depth] beyond name =
      schema.encoder name

theorem Layered.ranked {schema : Schema} (h : Layered schema.structures) :
    schema.Ranked (layer schema.structures) where
  bounded := layer_le schema.structures
  decreases _ hs _ hf _ ht := h.layer_lt_of_reference hs hf ht

theorem Layered.endsWithin {schema : Schema} (h : Layered schema.structures) :
    schema.EndsWithin schema.structures.length where
  read limits _ hname beyond :=
    h.iterate_byName (Decode.local_structure? limits) hname (layer_le _ _) beyond
  encoder _ hname beyond := h.iterate_byName Encode.local_encoder hname (layer_le _ _) beyond

/-- Every document is resolved within as many nested calls as it has types, and one more. A cycle
that is reported is one of the document, and no document with a cycle is accepted. The structures of
a resolved schema are ranked, so that reading, measuring, writing and checking nest no more calls
than there are structures, whatever the input or the value is. -/
theorem recursion_ends (d : Document) :
    (∀ name layout, d.layout? name = some layout → ∀ beyond,
      (visitBody d)^[d.types.length + 1] beyond [] name layout =
        visit d d.types.length [] name layout) ∧
      (∀ path, Schema.resolve d = .error (.cycle path) → d.IsCycle path) ∧
      ∀ schema, Schema.resolve d = .ok schema →
        d.Acyclic ∧ (∃ rank, schema.Ranked rank) ∧
          schema.EndsWithin schema.structures.length := by
  refine ⟨?_, ?_, ?_⟩
  · intro name layout hlayout beyond
    refine iterate_visitBody (.start name) hlayout ?_ ?_ beyond
    all_goals
      rw [List.length_nil]
      omega
  · intro path h
    exact cycle_of_resolve h
  · intro schema h
    have hl := layered_of_resolve h
    exact ⟨acyclic_of_resolve h, ⟨layer schema.structures, hl.ranked⟩, hl.endsWithin⟩

/-- A knot of two structures: a node has a link as a field, and a link puts a node inline. -/
def knotDocument : Document :=
  .ofList [
    ("Link", .struct [.inlined "Node"]),
    ("Node", .struct [.named "next" "Link"])]

/-- The knot is refused with its cycle, and packets are read and written within four calls. -/
theorem recursion_ends_knot_packet :
    knotDocument.IsCycle ["Link", "Node", "Link"] ∧ packetSchema.EndsWithin 4 :=
  ⟨(recursion_ends knotDocument).2.1 _ (by decide +kernel),
    ((recursion_ends packetDocument).2.2 _ resolve_packetDocument).2.2⟩

end WireSchema
