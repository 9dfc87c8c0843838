import WireSchema.Codec.Decode
import WireSchema.Proofs.Script
import WireSchema.Proofs.Resolve.Layered

/-!
# What the steps of reading do

The derived fields that were read so far are kept in a frame, and a field takes its size or count
from there. As every size stands before the field that it sizes (`Structure.Sound.governor_mem`), it
is in the frame when the field is read.

* `Decode.fields_derived`, `Decode.fields_content`: the equations for a single field.
* `Reader.Compositional.interpret`: a property that is kept by the ways in which readers are put
  together is one of the readers of all structures.
* `Schema.forward_read`: reading a structure only moves on.
* `Decode.exists_run_of_group`: what is known of a group that was read.
-/

namespace WireSchema

namespace Structure.Sound

variable {below : List Structure} {s : Structure}

theorem nodup_fields (hs : s.Sound below) : s.fields.Nodup := hs.distinct.of_map _

/-- The size of a field is among the fields that are read before it. -/
theorem governor_mem (hs : s.Sound below) {pre post : List Field} {f : Field}
    (hsplit : s.fields = pre ++ f :: post) {sizeField : String} {rule : Derivation}
    (hk : f.kind.governor? = some (sizeField, rule)) :
    ∃ width, (⟨sizeField, .derived width f.name rule⟩ : Field) ∈ pre := by
  have hf : f ∈ s.fields := by rw [hsplit]; simp
  have hnd := hs.nodup_fields
  rcases hs.wired.governed f hf sizeField rule hk with h | ⟨width, h⟩
  · cases h
  · rw [hsplit] at h hnd
    exact ⟨width, mem_of_pair_sublist_left h hnd⟩

/-- The field that a derived field describes is among those that are read after it. -/
theorem governed_mem (hs : s.Sound below) {pre post : List Field} {d : Field}
    (hsplit : s.fields = pre ++ d :: post) {width : Width} {content : String} {rule : Derivation}
    (hk : d.kind = .derived width content rule) :
    ∃ f ∈ post, f.name = content ∧ f.kind.governor? = some (d.name, rule) := by
  have hd : d ∈ s.fields := by rw [hsplit]; simp
  have hnd := hs.nodup_fields
  obtain ⟨f, h, hname, hgov⟩ := hs.wired.governs d hd width content rule hk
  rw [hsplit] at h hnd
  exact ⟨f, mem_of_pair_sublist_right h hnd, hname, hgov⟩

end Structure.Sound

namespace Decode

variable {nested : String → Reader Record} {limits : Limits} {owner : Structure} {frame : Frame}

/-! ### Frames and limits -/

theorem limited_eq_ok_iff {found limit : Nat} {c c' : Cursor} {u : Unit} :
    limited found limit c = .ok u c' ↔ found ≤ limit ∧ c = c' := by
  unfold limited
  split
  · next h => simp [h, pure, EStateM.pure]
  · next h => simp [h, Reader.throw_apply]

theorem reads_limited {found limit : Nat} (h : found ≤ limit) :
    Reader.Reads (limited found limit) [] () := by
  intro c c' hc
  exact limited_eq_ok_iff.2 ⟨h, hc.eq_self.symm⟩

theorem governing_eq_ok_iff {name : String} {n : Nat} {c c' : Cursor} :
    governing owner frame name c = .ok n c' ↔
      ∃ m, frame.lookup name = some m ∧ m.toNat = n ∧ c = c' := by
  unfold governing
  cases frame.lookup name with
  | none => simp [Reader.throw_apply]
  | some m => simp [pure, EStateM.pure]

theorem reads_governing {name : String} {n : UInt64} (h : frame.lookup name = some n) :
    Reader.Reads (governing owner frame name) [] n.toNat := by
  intro c c' hc
  exact governing_eq_ok_iff.2 ⟨n, h, rfl, hc.eq_self.symm⟩

/-! ### Lists of fields -/

@[simp] theorem fields_nil : fields nested limits owner [] frame = pure [] := rfl

theorem fields_derived {f : Field} {width : Width} {content : String} {rule : Derivation}
    (hk : f.kind = .derived width content rule) (rest : List Field) :
    fields nested limits owner (f :: rest) frame =
      Reader.scalar width >>= fun n =>
        fields nested limits owner rest ((f.name, n) :: frame) := by
  rw [fields, hk]

theorem fields_content {f : Field} (h : f.isContent) (rest : List Field) :
    fields nested limits owner (f :: rest) frame = do
      let v ← content nested limits owner frame f.kind
      return (f.name, v) :: (← fields nested limits owner rest frame) := by
  obtain ⟨name, kind⟩ := f
  cases kind with
  | derived => cases h
  | _ => rfl

end Decode

/-! ### Putting the readers of structures together -/

namespace Reader.Compositional

open Decode

variable {P : ∀ {α : Type}, Reader α → Prop} (h : Compositional P)
include h

variable {nested : String → Reader Record} {limits : Limits} {owner : Structure} {frame : Frame}

theorem limited (found limit : Nat) : P (Decode.limited found limit) := by
  unfold Decode.limited
  split
  · exact h.pure ()
  · exact h.throw _

theorem governing (name : String) : P (Decode.governing owner frame name) := by
  unfold Decode.governing
  split
  · exact h.pure _
  · exact h.throw _

section Structures

variable (hn : ∀ type, P (nested type))
include hn

theorem element (item : Element) : P (element nested item) := by
  cases item with
  | struct type => exact h.map (hn type) _
  | scalar width => exact h.map (h.scalar width) _
  | blob size => exact h.map (h.take size) _

/-- An item of a group whose items are held to a limit one by one. -/
theorem limited_element (item : Element) (before : Nat) :
    P (do Decode.limited (before + 1) limits.maxItems; Decode.element nested item) :=
  h.bind (h.limited _ _) fun _ => h.element hn item

theorem group (item : Element) (cardinality : Cardinality) :
    P (group nested limits owner frame item cardinality) := by
  have hitem := h.element hn item
  cases cardinality with
  | fixed count => exact h.counted hitem count
  | counted sizeField =>
    refine h.bind (h.governing sizeField) fun count => ?_
    exact h.bind (h.limited _ _) fun _ => h.counted hitem count
  | budgeted sizeField =>
    refine h.bind (h.governing sizeField) fun budget => ?_
    exact h.budgetedWith (h.limited_element hn item) budget

theorem content (kind : FieldKind) : P (content nested limits owner frame kind) := by
  cases kind with
  | scalar width => exact h.map (h.scalar width) _
  | fixedBlob size => exact h.map (h.take size) _
  | variableBlob sizeField =>
    refine h.bind (h.governing sizeField) fun length => ?_
    exact h.bind (h.limited _ _) fun _ => h.map (h.take length) _
  | embedded type => exact h.map (hn type) _
  | repeated item cardinality => exact h.map (h.group hn item cardinality) _
  | derived width _ _ => exact h.map (h.scalar width) _

theorem fields (fs : List Field) (frame : Frame) :
    P (fields nested limits owner fs frame) := by
  induction fs generalizing frame with
  | nil => exact h.pure []
  | cons f rest ih =>
    rcases f.isContent_or_derived with hc | ⟨width, content, rule, hk⟩
    · rw [fields_content hc]
      exact h.bind (h.content hn f.kind) fun v => h.map (ih frame) _
    · rw [fields_derived hk]
      exact h.bind (h.scalar width) fun n => ih _

end Structures

/-- All structures are read in a way that has the property, whatever the list of structures. -/
theorem interpret (limits : Limits) (structures : List Structure) (name : String) :
    P (interpret (fun name => MonadExcept.throw (.malformed (.unknownStructure name)))
      (structure? limits) structures name) := by
  induction structures generalizing name with
  | nil => exact h.throw _
  | cons s below ih =>
    unfold WireSchema.interpret
    split
    · exact h.fields ih s.fields []
    · exact ih name

end Reader.Compositional

/-! ### Moving on -/

/-- Reading a structure only moves on, whatever the list of structures. -/
theorem forward_interpret (limits : Limits) (structures : List Structure) (name : String) :
    Reader.Forward
      (interpret (fun name => throw (.malformed (.unknownStructure name)))
        (Decode.structure? limits) structures name) :=
  Reader.compositional_forward.interpret limits structures name

/-- Reading a structure only moves on. -/
theorem Schema.forward_read (schema : Schema) (limits : Limits) (name : String) :
    Reader.Forward (schema.read limits name) :=
  forward_interpret limits schema.structures name

/-! ### Groups that were read -/

/-- The items that were read between two positions are as many as the cardinality says, or take up
as many bytes. -/
def Decode.Sized (frame : Frame) (items : List Value) (c c' : Cursor) : Cardinality → Prop
  | .fixed count => items.length = count
  | .counted sizeField => ∃ n, frame.lookup sizeField = some n ∧ items.length = n.toNat
  | .budgeted sizeField => ∃ n, frame.lookup sizeField = some n ∧ c'.offset = c.offset + n.toNat

/-- The items of a group that was read were read one by one, to the size that governs it. -/
theorem Decode.exists_run_of_group {nested : String → Reader Record} {limits : Limits}
    {owner : Structure} {frame : Frame} {element : Element} {cardinality : Cardinality}
    {items : List Value} {c c' : Cursor} (hforward : ∀ type, Reader.Forward (nested type))
    (h : Decode.group nested limits owner frame element cardinality c = .ok items c') :
    ∃ readItem, Group.Run readItem 0 c items c' ∧
      (∀ k x c c', readItem k c = .ok x c' → Decode.element nested element c = .ok x c') ∧
      Decode.Sized frame items c c' cardinality := by
  cases cardinality with
  | fixed count =>
    obtain ⟨hcount, hrun⟩ := Group.counted_eq_ok_iff.1 h
    exact ⟨_, hrun, fun _ _ _ _ hx => hx, hcount⟩
  | counted sizeField =>
    obtain ⟨count, c₁, hgov, h⟩ := Reader.bind_eq_ok_iff.1 h
    obtain ⟨n, hlookup, rfl, rfl⟩ := Decode.governing_eq_ok_iff.1 hgov
    obtain ⟨_, c₂, hlim, h⟩ := Reader.bind_eq_ok_iff.1 h
    obtain ⟨_, rfl⟩ := Decode.limited_eq_ok_iff.1 hlim
    obtain ⟨hcount, hrun⟩ := Group.counted_eq_ok_iff.1 h
    exact ⟨_, hrun, fun _ _ _ _ hx => hx, n, hlookup, hcount⟩
  | budgeted sizeField =>
    obtain ⟨budget, c₁, hgov, h⟩ := Reader.bind_eq_ok_iff.1 h
    obtain ⟨n, hlookup, rfl, rfl⟩ := Decode.governing_eq_ok_iff.1 hgov
    obtain ⟨-, hrun, hoffset⟩ := (Group.budgetedWith_eq_ok_iff fun k =>
      (Reader.compositional_forward.limited_element hforward element k).advances).1 h
    refine ⟨_, hrun, fun k x c c' hx => ?_, n, hlookup, hoffset⟩
    -- the limit is checked before the item is read
    obtain ⟨_, c₁, hlim, hx⟩ := Reader.bind_eq_ok_iff.1 hx
    obtain ⟨_, rfl⟩ := Decode.limited_eq_ok_iff.1 hlim
    exact hx

end WireSchema
