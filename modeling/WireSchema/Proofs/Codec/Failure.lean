import WireSchema.Proofs.Codec.Checked
import WireSchema.Proofs.Codec.Reencode

/-!
# How reading fails

A structure of a resolved schema is refused for three reasons only: there are not enough bytes, a
size or a count is above its limit, or the items of a group overshoot its budget. The other failures
that a reader has words for are out of reach: every size was read before the field that it sizes,
every structure that a field refers to is there, and every item of a group takes a byte.

* `Error.Foreseen`: the three reasons.
* `Reader.FailsWell`: a reader fails for no other reason.
* `Layered.failsWell`: all structures of a layered schema are read so.
* `Schema.decode_failsWell`: what that means for any input, of which nothing is known but that it is
  no longer than a buffer can be. With machine words nothing goes out of range, but there may be no
  room for a vector of as many items as there are bytes.
-/

namespace WireSchema

open Reader (compositional_forward)

/-- The reasons for which reading a structure of a resolved schema may fail. -/
inductive Error.Foreseen : Error → Prop
  | outOfRange {requested remaining : Nat} : Foreseen (.outOfRange requested remaining)
  | lengthExceeded {found limit : Nat} : limit < found → Foreseen (.lengthExceeded found limit)
  | overshoot {consumed budget : Nat} : budget < consumed →
    Foreseen (.malformed (.overshoot consumed budget))

/-- The errors that decoding is documented to have. -/
def Error.Documented : Error → Prop
  | outOfRange _ _ => True
  | lengthExceeded _ _ => True
  | trailingData _ => True
  | malformed _ => True
  | _ => False

theorem Error.Foreseen.documented {e : Error} (h : e.Foreseen) : e.Documented := by
  cases h <;> trivial

namespace Reader

variable {α β : Type} {r : Reader α} {f : α → Reader β}

/-- With no more bytes left than a machine word can count, the reader fails for foreseen reasons
only. -/
def FailsWell (r : Reader α) : Prop :=
  ∀ c e c', c.rest.length < 2 ^ 64 → r c = .error e c' → e.Foreseen

/-- With no more bytes left than a machine word can count, what the reader reads takes a byte. -/
def TakesBytes (r : Reader α) : Prop :=
  ∀ c a c', c.rest.length < 2 ^ 64 → r c = .ok a c' → c'.offset ≠ c.offset

theorem failsWell_pure (a : α) : FailsWell (pure a : Reader α) := by
  intro c e c' _ h
  cases h

theorem FailsWell.bind (hr : FailsWell r) (hforward : Forward r) (hf : ∀ a, FailsWell (f a)) :
    FailsWell (r >>= f) := by
  intro c e c' hc h
  cases hrc : r c with
  | error e₁ c₁ =>
    rw [bind_of_error hrc] at h
    cases h
    exact hr c e c' hc hrc
  | ok a c₁ =>
    rw [bind_of_ok hrc] at h
    obtain ⟨bs, hbs⟩ := hforward.passes hrc
    exact hf a c₁ e c' (Nat.lt_of_le_of_lt hbs.rest_length_le hc) h

theorem FailsWell.map (hr : FailsWell r) (hforward : Forward r) (g : α → β) :
    FailsWell (do return g (← r)) :=
  hr.bind hforward fun a => failsWell_pure (g a)

theorem failsWell_take (n : Nat) : FailsWell (take n) := by
  intro c e c' _ h
  by_cases hn : n ≤ c.remaining
  · rw [take_eq_ok hn] at h
    cases h
  · rw [take_eq_error (Nat.lt_of_not_le hn)] at h
    cases h
    exact .outOfRange

theorem failsWell_scalar (w : Width) : FailsWell (scalar w) :=
  (failsWell_take w.bytes).map (forward_take w.bytes) _

end Reader

/-! ### Groups -/

namespace Group

variable {α : Type}

theorem failsWell_counted {read : Reader α} (hread : Reader.FailsWell read)
    (hforward : Reader.Forward read) (htakes : Reader.TakesBytes read) (n : Nat) :
    Reader.FailsWell (counted read n) := by
  induction n with
  | zero => exact Reader.failsWell_pure []
  | succ n ih =>
    intro c e c' hc h
    rw [counted_succ] at h
    cases hr : read c with
    | error e₁ c₁ =>
      simp only [hr] at h
      cases h
      exact hread c e c' hc hr
    | ok a c₁ =>
      simp only [hr, if_neg (htakes c a c₁ hc hr)] at h
      obtain ⟨bs, hbs⟩ := hforward.passes hr
      cases hg : counted read n c₁ with
      | ok items c₂ => simp [hg] at h
      | error e₂ c₂ =>
        simp only [hg] at h
        cases h
        exact ih c₁ e c' (Nat.lt_of_le_of_lt hbs.rest_length_le hc) hg

/-- As every item takes a byte of the budget, there is a call left for each, and none is empty. -/
theorem foreseen_of_budgetedFrom {read : Nat → Reader α} (hread : ∀ k, Reader.FailsWell (read k))
    (hforward : ∀ k, Reader.Forward (read k)) (htakes : ∀ k, Reader.TakesBytes (read k))
    {budget calls used count : Nat} {done : List α} {c c' : Cursor} {e : Error}
    (hcalls : budget ≤ used + calls) (hc : c.rest.length < 2 ^ 64)
    (h : budgetedFrom read budget calls used count done c = .error e c') : e.Foreseen := by
  induction calls generalizing used count done c with
  | zero =>
    by_cases hused : used = budget
    · rw [budgetedFrom_end hused] at h
      cases h
    · have hover : budget < used := by omega
      rw [budgetedFrom_over hover] at h
      cases h
      exact .overshoot hover
  | succ calls ih =>
    by_cases hused : used = budget
    · rw [budgetedFrom_end hused] at h
      cases h
    by_cases hover : budget < used
    · rw [budgetedFrom_over hover] at h
      cases h
      exact .overshoot hover
    rw [budgetedFrom_succ hused hover] at h
    cases hr : read count c with
    | error e₁ c₁ =>
      simp only [hr] at h
      cases h
      exact hread count c e c' hc hr
    | ok a c₁ =>
      have hmoved := htakes count c a c₁ hc hr
      simp only [hr, if_neg hmoved] at h
      obtain ⟨bs, hbs⟩ := (hforward count).passes hr
      have hoffset := hbs.offset
      exact ih (by omega) (Nat.lt_of_le_of_lt hbs.rest_length_le hc) h

theorem failsWell_budgetedWith {read : Nat → Reader α} (hread : ∀ k, Reader.FailsWell (read k))
    (hforward : ∀ k, Reader.Forward (read k)) (htakes : ∀ k, Reader.TakesBytes (read k))
    (budget : Nat) : Reader.FailsWell (budgetedWith read budget) := by
  intro c e c' hc h
  unfold budgetedWith at h
  by_cases hbudget : budget ≤ c.remaining
  · have hleast : Reader.atLeast budget c = .ok () c := if_pos hbudget
    rw [Reader.bind_of_ok hleast] at h
    exact foreseen_of_budgetedFrom hread hforward htakes (by omega) hc h
  · have hleast : Reader.atLeast budget c = .error (.outOfRange budget c.remaining) c :=
      if_neg hbudget
    rw [Reader.bind_of_error hleast] at h
    cases h
    exact .outOfRange

end Group

/-! ### Structures -/

namespace Decode

variable {nested : String → Reader Record} {limits : Limits} {owner : Structure} {frame : Frame}
  {below : List Structure} {s : Structure}

theorem failsWell_limited (found limit : Nat) : Reader.FailsWell (limited found limit) := by
  intro c e c' _ h
  unfold limited at h
  split at h
  · cases h
  · next hover =>
    rw [Reader.throw_apply] at h
    cases h
    exact .lengthExceeded (Nat.lt_of_not_le hover)

/-- A size that was read is at hand. -/
theorem failsWell_governing {name : String} (h : (frame.lookup name).isSome) :
    Reader.FailsWell (governing owner frame name) := by
  obtain ⟨n, hn⟩ := Option.isSome_iff_exists.1 h
  unfold governing
  rw [hn]
  exact Reader.failsWell_pure n.toNat

theorem takesBytes_limited {α : Type} {read : Reader α} (h : Reader.TakesBytes read)
    (found limit : Nat) : Reader.TakesBytes (do limited found limit; read) := by
  intro c a c' hc hread
  obtain ⟨_, c₁, hlim, hread⟩ := Reader.bind_eq_ok_iff.1 hread
  obtain ⟨-, rfl⟩ := limited_eq_ok_iff.1 hlim
  exact h c a c' hc hread

/-- What is known of the readers of the structures below. -/
structure Reliable (below : List Structure) (nested : String → Reader Record) : Prop where
  failsWell : ∀ type, (findStructure? below type).isSome → Reader.FailsWell (nested type)
  forward : ∀ type, Reader.Forward (nested type)
  takesBytes : ∀ item : Element, 0 < item.minSize below → Reader.TakesBytes (element nested item)

variable (hn : Reliable below nested)
include hn

theorem failsWell_element {item : Element} {cardinality : Cardinality}
    (href : ∀ type ∈ (FieldKind.repeated item cardinality).references,
      (findStructure? below type).isSome) : Reader.FailsWell (element nested item) := by
  cases item with
  | struct type =>
    exact (hn.failsWell type (href type (List.mem_singleton_self type))).map (hn.forward type) _
  | scalar width => exact (Reader.failsWell_scalar width).map (Reader.forward_scalar width) _
  | blob size => exact (Reader.failsWell_take size).map (Reader.forward_take size) _

/-- A field is read well if the size that governs it was read before. -/
theorem failsWell_content (hs : s.Sound below) {f : Field} (hf : f ∈ s.fields)
    (hgov : ∀ sizeField rule, f.kind.governor? = some (sizeField, rule) →
      (frame.lookup sizeField).isSome) :
    Reader.FailsWell (content nested limits owner frame f.kind) := by
  have href := hs.references f hf
  have hitems := hs.nonempty f hf
  generalize f.kind = kind at hgov href hitems ⊢
  cases kind with
  | scalar width => exact (Reader.failsWell_scalar width).map (Reader.forward_scalar width) _
  | fixedBlob size => exact (Reader.failsWell_take size).map (Reader.forward_take size) _
  | variableBlob sizeField =>
    refine (failsWell_governing (hgov sizeField _ rfl)).bind (compositional_forward.governing _)
      fun length => ?_
    refine (failsWell_limited length _).bind (compositional_forward.limited _ _) fun _ => ?_
    exact (Reader.failsWell_take length).map (Reader.forward_take length) _
  | embedded type =>
    exact (hn.failsWell type (href type (List.mem_singleton_self type))).map (hn.forward type) _
  | derived width _ _ => exact (Reader.failsWell_scalar width).map (Reader.forward_scalar width) _
  | repeated item cardinality =>
    have hitem := failsWell_element hn href
    have hmoves := compositional_forward.element hn.forward item
    have htakes := hn.takesBytes item (hitems item cardinality rfl)
    refine Reader.FailsWell.map ?_ (compositional_forward.group hn.forward item cardinality) _
    cases cardinality with
    | fixed count => exact Group.failsWell_counted hitem hmoves htakes count
    | counted sizeField =>
      refine (failsWell_governing (hgov sizeField _ rfl)).bind (compositional_forward.governing _)
        fun count => ?_
      refine (failsWell_limited count _).bind (compositional_forward.limited _ _) fun _ => ?_
      exact Group.failsWell_counted hitem hmoves htakes count
    | budgeted sizeField =>
      refine (failsWell_governing (hgov sizeField _ rfl)).bind (compositional_forward.governing _)
        fun budget => ?_
      refine Group.failsWell_budgetedWith (fun before => ?_)
        (compositional_forward.limited_element hn.forward item)
        (fun before => takesBytes_limited htakes _ _) budget
      exact (failsWell_limited _ _).bind (compositional_forward.limited _ _) fun _ => hitem

/-- Fields are read well if all sizes that were read before them are at hand. -/
theorem failsWell_fields (hs : s.Sound below) {pre post : List Field}
    (hsplit : s.fields = pre ++ post)
    (hframe : ∀ d ∈ pre, ∀ width content rule, d.kind = .derived width content rule →
      (frame.lookup d.name).isSome) :
    Reader.FailsWell (fields nested limits s post frame) := by
  induction post generalizing pre frame with
  | nil => exact Reader.failsWell_pure []
  | cons f post ih =>
    have hsplit' : s.fields = (pre ++ [f]) ++ post := by
      rw [hsplit, List.append_assoc, List.singleton_append]
    rcases f.isContent_or_derived with hcontent | ⟨width, content, rule, hk⟩
    · rw [fields_content hcontent]
      have hf : f ∈ s.fields := by rw [hsplit]; simp
      have hgov : ∀ sizeField rule, f.kind.governor? = some (sizeField, rule) →
          (frame.lookup sizeField).isSome := by
        intro sizeField rule hk
        obtain ⟨width, hd⟩ := hs.governor_mem hsplit hk
        exact hframe _ hd width f.name rule rfl
      refine (failsWell_content hn hs hf hgov).bind
        (compositional_forward.content hn.forward f.kind) fun v => ?_
      refine (ih hsplit' fun d hd width content rule hk => ?_).map
        (compositional_forward.fields hn.forward post frame) _
      rcases List.mem_append.1 hd with hd | hd
      · exact hframe d hd width content rule hk
      · rw [List.mem_singleton.1 hd] at hk
        simp [Field.isContent, hk] at hcontent
    · rw [fields_derived hk]
      refine (Reader.failsWell_scalar width).bind (Reader.forward_scalar width) fun n => ?_
      refine ih hsplit' fun d hd width' content' rule' hk' => ?_
      rw [List.lookup_cons]
      rcases List.mem_append.1 hd with hd | hd
      · cases heq : d.name == f.name with
        | true => rfl
        | false => exact hframe d hd width' content' rule' hk'
      · rw [List.mem_singleton.1 hd, beq_self_eq_true]
        rfl

end Decode

section Layered

variable {structures : List Structure}

/-- What is read as an item is written to the bytes that were taken, and so to no fewer than the
item has at its shortest. -/
theorem Layered.takesBytes (h : Layered structures) (limits : Limits) (item : Element)
    (hpos : 0 < item.minSize structures) :
    Reader.TakesBytes
      (Decode.element
        (interpret (fun name => throw (.malformed (.unknownStructure name)))
          (Decode.structure? limits) structures) item) := by
  intro c x c' hc hread
  -- an item stands in some field of some structure, but which one makes no difference
  obtain ⟨bs, hpass, hwrite⟩ := (h.reproduces limits).writes_item
    (s := ⟨"", [], [], none, 0⟩) (f := ⟨"", .repeated item (.fixed 1)⟩) hread hc
  have hleast := (h.measures.item hwrite).least_le
  rw [hpass.offset_ne_iff, ← List.length_pos_iff]
  omega

/-- All structures of a layered schema fail for foreseen reasons only. -/
theorem Layered.failsWell (h : Layered structures) (limits : Limits) :
    ∀ name, (findStructure? structures name).isSome →
      Reader.FailsWell
        (interpret (fun name => throw (.malformed (.unknownStructure name)))
          (Decode.structure? limits) structures name) := by
  induction h with
  | nil =>
    intro name hname
    cases hname
  | @cons s below _ hs hbelow ih =>
    intro name hname
    rw [findStructure?_cons] at hname
    by_cases heq : s.name = name
    · subst heq
      rw [interpret_head]
      have hn : Decode.Reliable below
          (interpret (fun name => throw (.malformed (.unknownStructure name)))
            (Decode.structure? limits) below) :=
        ⟨ih, forward_interpret limits below, hbelow.takesBytes limits⟩
      exact Decode.failsWell_fields hn hs (List.nil_append _).symm (by simp)
    · rw [if_neg heq] at hname
      rw [interpret_tail _ _ _ heq]
      exact ih name hname

end Layered

namespace Schema

/-- Where a reader fails that starts in an input, it is still in it, and has not gone back. -/
theorem offset_of_read_eq_error {schema : Schema} {limits : Limits} {name : String}
    {input : Bytes} {start : Nat} (hstart : start ≤ input.length) {e : Error} {c : Cursor}
    (h : schema.read limits name ⟨start, input.drop start⟩ = .error e c) :
    start ≤ c.offset ∧ c.offset ≤ input.length := by
  obtain ⟨bs, hbs⟩ := schema.forward_read limits name ⟨start, input.drop start⟩
  rw [Reader.final_of_error h] at hbs
  have hoffset : c.offset = start + bs.length := hbs.offset
  have hlength : bs.length ≤ (input.drop start).length := hbs.length_le
  rw [List.length_drop] at hlength
  omega

/-- With a resolved schema, decoding any input has the outcome that it has with machine words, so
that no operation goes out of range, unless a vector with room for as many items as the input has
bytes, or for fewer, takes more than half of what a machine word can count; where there is room for
these vectors, it always has that outcome. It fails only in the ways that are documented, and for a
structure of the schema malformed input is only a group that overshoots its budget. The same holds
of reading from anywhere in the input, and where that fails, the cursor is between the place where
it started and the end of the input. -/
theorem decode_failsWell {d : Document} {schema : Schema} (h : Schema.resolve d = .ok schema)
    (limits : Limits) (name : String) {input : Bytes} (hinput : input.length < 2 ^ 63) :
    (∀ storage : Checked.Storage,
      (Checked.decode storage schema limits name input =
          (schema.decode limits name input).mapError .fails ∨
        ∃ capacity, Checked.decode storage schema limits name input = .error (.noRoom capacity) ∧
          storage.Lacks input.length capacity) ∧
      (storage.Ample input.length → Checked.decode storage schema limits name input =
        (schema.decode limits name input).mapError .fails)) ∧
      (∀ e, schema.decode limits name input = .error e → e.Documented) ∧
      ((schema.structure? name).isSome → ∀ cause,
        schema.decode limits name input = .error (.malformed cause) →
          ∃ consumed budget, cause = .overshoot consumed budget ∧ budget < consumed) ∧
      ∀ start ≤ input.length,
        (∀ storage : Checked.Storage,
          Checked.Tracks {storage} input (Checked.read storage schema limits name ⟨input, start⟩)
            (schema.read limits name ⟨start, input.drop start⟩)) ∧
          ∀ e c, schema.read limits name ⟨start, input.drop start⟩ = .error e c →
            start ≤ c.offset ∧ c.offset ≤ input.length := by
  have hl := layered_of_resolve h
  have hshort : (Cursor.start input).rest.length < 2 ^ 64 := by
    show input.length < 2 ^ 64
    omega
  have hforeseen : (schema.structure? name).isSome → ∀ e c,
      schema.read limits name (.start input) = .error e c → e.Foreseen := fun hname e c =>
    hl.failsWell limits name hname (.start input) e c hshort
  refine ⟨fun storage => ?_, ?_, ?_, ?_⟩
  · have hdecode := Checked.decode_eq storage schema limits name hinput
    refine ⟨hdecode, fun hroom => hdecode.resolve_right ?_⟩
    rintro ⟨capacity, -, hlacks⟩
    exact hroom.not_lacks capacity hlacks
  · intro e he
    rcases Reader.decode_eq_error_iff.1 he with ⟨c, hread⟩ | ⟨r, c, -, -, rfl⟩
    · cases hfind : schema.structure? name with
      | some s => exact (hforeseen (hfind ▸ rfl) e c hread).documented
      | none =>
        -- a structure that is not there is refused at once
        unfold read at hread
        rw [interpret_of_find_eq_none _ _ hfind] at hread
        cases hread
        trivial
    · trivial
  · intro hname cause he
    rcases Reader.decode_eq_error_iff.1 he with ⟨c, hread⟩ | ⟨r, c, -, -, heq⟩
    · cases hforeseen hname _ c hread with
      | @overshoot consumed budget hover => exact ⟨consumed, budget, rfl, hover⟩
    · cases heq
  · intro start hstart
    refine ⟨fun storage => Checked.follows_read storage schema limits name ⟨input, start⟩
      ⟨hstart, hinput⟩, ?_⟩
    intro e c hread
    exact offset_of_read_eq_error hstart hread

end Schema

/-! ### Inputs that are not to be trusted -/

/-- A packet whose parts are said to take a byte less than they do. -/
def overshootBytes : Bytes := [0, 0, 5, 0, 0, 0, 9, 0, 0, 2, 0, 1, 0, 2, 0]

/-- Records with as many words as a number of eight bytes says. -/
def floodDocument : Document :=
  .ofList [
    ("word", .byte 2 (some .unsigned)),
    ("long", .byte 8 (some .unsigned)),
    ("Flood", .struct [
      .named "count" "long",
      (Attribute.named "words" "word").withSize (.field "count")])]

/-- The schema of these records. -/
def floodSchema : Schema where
  structures := [
    { name := "Flood"
      fields := [
        ⟨"count", .derived .eight "words" .itemCount⟩,
        ⟨"words", .repeated (.scalar .two) (.counted "count")⟩]
      constants := []
      fixedSize := none
      minSize := 8 }]
  enumerations := []

theorem resolve_floodDocument : Schema.resolve floodDocument = .ok floodSchema := by
  decide +kernel

/-- The largest number that there is, and a word and a half. -/
def floodBytes : Bytes := List.replicate 8 255 ++ [1, 0, 2]

/-- A packet overshoots its budget. A count says that there are more words than a vector can hold,
and there is one; where values take forty bytes, room is made for three of them, and reading goes
on. Where they take half of what a vector may take, there is no room for three. -/
theorem decode_failsWell_untrusted :
    Checked.decode (.doubling 40) packetSchema {} "Packet" overshootBytes =
        .error (.fails (.malformed (.overshoot 6 5))) ∧
      (∃ consumed budget, Malformation.overshoot 6 5 = .overshoot consumed budget ∧
        budget < consumed) ∧
      ¬(Checked.Storage.doubling 40).Fits (2 ^ 64 - 1) ∧
      Checked.decode (.doubling 40) floodSchema {} "Flood" floodBytes =
        .error (.fails (.outOfRange 2 1)) ∧
      Checked.decode (.doubling (2 ^ 62)) floodSchema {} "Flood" floodBytes =
        .error (.noRoom 3) := by
  have hdecode : packetSchema.decode {} "Packet" overshootBytes =
      .error (.malformed (.overshoot 6 5)) := rfl
  have hlength : overshootBytes.length < 2 ^ 63 := by decide
  obtain ⟨hchecked, -, hmalformed, -⟩ :=
    Schema.decode_failsWell resolve_packetDocument {} "Packet" hlength
  have hpacket := (hchecked (.doubling 40)).2 (Checked.Storage.ample_doubling (by decide))
  have hflood : floodSchema.decode {} "Flood" floodBytes = .error (.outOfRange 2 1) := rfl
  have hshort : floodBytes.length < 2 ^ 63 := by decide
  obtain ⟨hfloods, -⟩ := Schema.decode_failsWell resolve_floodDocument {} "Flood" hshort
  have hwords := (hfloods (.doubling 40)).2 (Checked.Storage.ample_doubling (by decide))
  rw [hdecode] at hpacket
  rw [hflood] at hwords
  exact ⟨hpacket, hmalformed rfl _ hdecode, by decide, hwords, rfl⟩

end WireSchema
