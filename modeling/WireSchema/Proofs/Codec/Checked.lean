import Mathlib.Data.Set.Insert
import WireSchema.Proofs.Codec.Reading
import WireSchema.Proofs.Group.Vectors

/-!
# Reading structures with machine words

Structures are read from a position in the whole input as they are from the rest of it:
`Checked.read` and `Checked.decode` follow the same layouts, with each operation on offsets, sizes
and counts checked, and with the items of groups kept in vectors. The vectors of the fields
themselves are no longer than those of the schema, whatever the input is.

* `Checked.follows_read`: reading with machine words follows reading as it is, for all schemas.
* `Checked.decode_eq`: so the two have the same outcome on whole inputs, unless there is no room for
  a vector.
-/

namespace WireSchema

namespace Checked

open Reader (compositional_forward)

/-! ### Structures -/

/-- Refuses a size or a count above the limit. -/
def limited (found limit : Nat) : Reader Unit :=
  if found ≤ limit then pure () else fail (.lengthExceeded found limit)

/-- The size or count that the field `name` held. -/
def governing (owner : Structure) (frame : Frame) (name : String) : Reader Nat :=
  match frame.lookup name with
  | some n => pure n.toNat
  | none => fail (.malformed (.notDecoded owner.name name))

/-- Reads one item of a group. -/
def element (nested : String → Reader Record) : Element → Reader Value
  | .struct type => return .record (← nested type)
  | .scalar width => return .uint (← scalar width)
  | .blob size => return .bytes (← take size)

/-- Reads the items of a group. -/
def group (storage : Storage) (nested : String → Reader Record) (limits : Limits)
    (owner : Structure) (frame : Frame) (item : Element) : Cardinality → Reader (List Value)
  | .fixed count => counted storage (element nested item) count
  | .counted sizeField => do
    let count ← governing owner frame sizeField
    limited count limits.maxItems
    counted storage (element nested item) count
  | .budgeted sizeField => do
    let budget ← governing owner frame sizeField
    budgetedWith storage
      (fun before => do
        limited (← add before 1) limits.maxItems
        element nested item)
      budget

/-- Reads what a field holds. -/
def content (storage : Storage) (nested : String → Reader Record) (limits : Limits)
    (owner : Structure) (frame : Frame) : FieldKind → Reader Value
  | .scalar width => return .uint (← scalar width)
  | .fixedBlob size => return .bytes (← take size)
  | .variableBlob sizeField => do
    let length ← governing owner frame sizeField
    limited length limits.maxBlobLength
    return .bytes (← take length)
  | .embedded type => return .record (← nested type)
  | .repeated item cardinality =>
    return .list (← group storage nested limits owner frame item cardinality)
  | .derived width _ _ => return .uint (← scalar width)

/-- Reads the fields in order, with the derived fields that were read before them. -/
def fields (storage : Storage) (nested : String → Reader Record) (limits : Limits)
    (owner : Structure) : List Field → Frame → Reader Record
  | [], _ => return []
  | f :: rest, frame =>
    match f.kind with
    | .derived width _ _ => do
      let n ← reported (scalar width)
      fields storage nested limits owner rest ((f.name, n) :: frame)
    | kind => do
      let v ← reported (content storage nested limits owner frame kind)
      return (f.name, v) :: (← fields storage nested limits owner rest frame)

/-- Reads a structure, given how to read the structures that it refers to. -/
def structure? (storage : Storage) (limits : Limits) (nested : String → Reader Record)
    (s : Structure) : Reader Record :=
  reported (fields storage nested limits s s.fields [])

/-- Reads the structure `name` with machine words, where the values of groups are kept as `storage`
says. -/
def read (storage : Storage) (schema : Schema) (limits : Limits) (name : String) : Reader Record :=
  interpret (fun name => fail (.malformed (.unknownStructure name))) (structure? storage limits)
    schema.structures name

/-- Reads the structure `name` from the whole of an input, with machine words. -/
def decode (storage : Storage) (schema : Schema) (limits : Limits) (name : String)
    (input : Bytes) : Except Stop Record :=
  result (do let r ← read storage schema limits name; exhausted; return r) ⟨input, 0⟩

/-! ### Following plain readers -/

section Structures

variable {nested : String → Reader Record} {plain : String → WireSchema.Reader Record}
  {storage : Storage} {limits : Limits} {owner : Structure} {frame : Frame}

theorem follows_limited (found limit : Nat) :
    Follows {storage} (limited found limit) (Decode.limited found limit) := by
  unfold limited Decode.limited
  split
  · exact follows_pure ()
  · exact follows_fail _

theorem follows_governing (name : String) :
    Follows {storage} (governing owner frame name) (Decode.governing owner frame name) := by
  unfold governing Decode.governing
  cases frame.lookup name with
  | some n => exact follows_pure n.toNat
  | none => exact follows_fail _

theorem fields_derived {f : Field} {width : Width} {content : String} {rule : Derivation}
    (hk : f.kind = .derived width content rule) (rest : List Field) :
    fields storage nested limits owner (f :: rest) frame =
      reported (scalar width) >>= fun n =>
        fields storage nested limits owner rest ((f.name, n) :: frame) := by
  rw [fields, hk]

theorem fields_content {f : Field} (h : f.isContent) (rest : List Field) :
    fields storage nested limits owner (f :: rest) frame = do
      let v ← reported (content storage nested limits owner frame f.kind)
      return (f.name, v) :: (← fields storage nested limits owner rest frame) := by
  obtain ⟨name, kind⟩ := f
  cases kind with
  | derived => cases h
  | _ => rfl

variable (hn : ∀ type, Follows {storage} (nested type) (plain type))
  (hforward : ∀ type, (plain type).Forward)
include hn hforward

theorem follows_element (item : Element) :
    Follows {storage} (element nested item) (Decode.element plain item) := by
  cases item with
  | struct type => exact (hn type).map (hforward type) _
  | scalar width => exact (follows_scalar width).map (Reader.forward_scalar width) _
  | blob size => exact (follows_take size).map (Reader.forward_take size) _

/-- The number of the items so far can be counted on. -/
theorem follows_limited_element (item : Element) {before : Nat} (h : before < 2 ^ 63) :
    Follows {storage} (do limited (← add before 1) limits.maxItems; element nested item)
      (do Decode.limited (before + 1) limits.maxItems; Decode.element plain item) := by
  intro p hp
  have hadd : add before 1 p = .ok (before + 1) p := add_eq (by omega)
  have hfollows := (follows_limited (before + 1) limits.maxItems).bind
    (compositional_forward.limited _ _) fun _ => follows_element hn hforward item
  rw [Reader.bind_of_ok hadd]
  exact hfollows p hp

theorem follows_group (item : Element) (cardinality : Cardinality) :
    Follows {storage} (group storage nested limits owner frame item cardinality)
      (Decode.group plain limits owner frame item cardinality) := by
  have hkept := Set.mem_singleton storage
  have hitem := follows_element hn hforward item
  have hmoves := compositional_forward.element hforward item
  cases cardinality with
  | fixed count => exact follows_counted hkept hitem hmoves count
  | counted sizeField =>
    refine (follows_governing sizeField).bind (compositional_forward.governing _) fun count => ?_
    refine (follows_limited count _).bind (compositional_forward.limited _ _) fun _ => ?_
    exact follows_counted hkept hitem hmoves count
  | budgeted sizeField =>
    refine (follows_governing sizeField).bind (compositional_forward.governing _) fun budget => ?_
    exact follows_budgetedWith hkept (fun before h => follows_limited_element hn hforward item h)
      (compositional_forward.limited_element hforward item) budget

theorem follows_content (kind : FieldKind) :
    Follows {storage} (content storage nested limits owner frame kind)
      (Decode.content plain limits owner frame kind) := by
  cases kind with
  | scalar width => exact (follows_scalar width).map (Reader.forward_scalar width) _
  | fixedBlob size => exact (follows_take size).map (Reader.forward_take size) _
  | variableBlob sizeField =>
    refine (follows_governing sizeField).bind (compositional_forward.governing _) fun length => ?_
    refine (follows_limited length _).bind (compositional_forward.limited _ _) fun _ => ?_
    exact (follows_take length).map (Reader.forward_take length) _
  | embedded type => exact (hn type).map (hforward type) _
  | repeated item cardinality =>
    exact (follows_group hn hforward item cardinality).map
      (compositional_forward.group hforward item cardinality) _
  | derived width _ _ => exact (follows_scalar width).map (Reader.forward_scalar width) _

theorem follows_fields (fs : List Field) (frame : Frame) :
    Follows {storage} (fields storage nested limits owner fs frame)
      (Decode.fields plain limits owner fs frame) := by
  induction fs generalizing frame with
  | nil => exact follows_pure []
  | cons f rest ih =>
    rcases f.isContent_or_derived with hc | ⟨width, content, rule, hk⟩
    · have hmoves : (Decode.content plain limits owner frame f.kind).Forward :=
        compositional_forward.content hforward f.kind
      rw [fields_content hc, Decode.fields_content hc]
      refine ((follows_content hn hforward f.kind).reported hmoves).bind hmoves fun v => ?_
      exact (ih frame).map (compositional_forward.fields hforward rest frame) _
    · have hmoves := Reader.forward_scalar width
      rw [fields_derived hk, Decode.fields_derived hk]
      exact ((follows_scalar width).reported hmoves).bind hmoves fun n => ih _

theorem follows_structure? (s : Structure) :
    Follows {storage} (structure? storage limits nested s) (Decode.structure? limits plain s) :=
  (follows_fields hn hforward s.fields []).reported
    (compositional_forward.fields hforward s.fields [])

end Structures

/-- Reading with machine words follows reading as it is. -/
theorem follows_read (storage : Storage) (schema : Schema) (limits : Limits) (name : String) :
    Follows {storage} (read storage schema limits name) (schema.read limits name) := by
  unfold read Schema.read
  induction schema.structures generalizing name with
  | nil => exact follows_fail _
  | cons s below ih =>
    unfold interpret
    split
    · exact follows_structure? ih (forward_interpret limits below) s
    · exact ih name

/-- A whole input is read with machine words as it is read without them, unless there is no room for
a vector of as many items as there are bytes, or fewer. -/
theorem decode_eq (storage : Storage) (schema : Schema) (limits : Limits) (name : String)
    {input : Bytes} (h : input.length < 2 ^ 63) :
    decode storage schema limits name input = (schema.decode limits name input).mapError .fails ∨
      ∃ capacity, decode storage schema limits name input = .error (.noRoom capacity) ∧
        storage.Lacks input.length capacity := by
  have hwhole : Follows {storage} (do let r ← read storage schema limits name; exhausted; return r)
      (do let r ← schema.read limits name; Reader.exhausted; return r) := by
    have hread := follows_read storage schema limits name
    refine hread.bind (schema.forward_read limits name) fun r => ?_
    exact follows_exhausted.bind Reader.forward_exhausted fun _ => follows_pure r
  refine (hwhole.result_eq ⟨Nat.zero_le _, h⟩).imp_right ?_
  rintro ⟨_, rfl, hlacks⟩
  exact hlacks

end Checked

end WireSchema
