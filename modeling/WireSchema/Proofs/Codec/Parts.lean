import WireSchema.Proofs.Codec.Reading
import WireSchema.Proofs.Codec.Writing

/-!
# Parts of structures

The fields of a structure are read and written part by part. What a part is read as depends on the
fields before it only through the sizes that it takes from them, and what it is written as depends
on its own content and on what its derived fields describe.

* `Decode.part`, `Decode.fields_append`: reading one part after the other.
* `Decode.part_congr`: a part is read the same where it finds the same sizes.
* `Encode.part`, `Encode.write_append`: writing one part after the other.
* `Encode.fieldBytes_congr_owner`: a field is written the same in two structures that have it,
  together with what it describes.
-/

namespace WireSchema

namespace Decode

variable {nested : String → Reader Record} {limits : Limits} {owner owner' : Structure}
  {frame frame' : Frame}

/-- Reads some of the fields of a structure: their content, and the derived fields among them, the
latest first. -/
def part (nested : String → Reader Record) (limits : Limits) (owner : Structure) :
    List Field → Frame → Reader (Record × Frame)
  | [], _ => return ([], [])
  | f :: rest, frame =>
    match f.kind with
    | .derived width _ _ => do
      let n ← Reader.scalar width
      let (r, added) ← part nested limits owner rest ((f.name, n) :: frame)
      return (r, added ++ [(f.name, n)])
    | kind => do
      let v ← content nested limits owner frame kind
      let (r, added) ← part nested limits owner rest frame
      return ((f.name, v) :: r, added)

theorem part_derived {f : Field} {width : Width} {content : String} {rule : Derivation}
    (hk : f.kind = .derived width content rule) (rest : List Field) :
    part nested limits owner (f :: rest) frame = do
      let n ← Reader.scalar width
      let (r, added) ← part nested limits owner rest ((f.name, n) :: frame)
      return (r, added ++ [(f.name, n)]) := by
  rw [part, hk]

theorem part_content {f : Field} (h : f.isContent) (rest : List Field) :
    part nested limits owner (f :: rest) frame = do
      let v ← content nested limits owner frame f.kind
      let (r, added) ← part nested limits owner rest frame
      return ((f.name, v) :: r, added) := by
  obtain ⟨name, kind⟩ := f
  cases kind with
  | derived => cases h
  | _ => rfl

/-- Fields are read part by part, each with the derived fields of the parts before it. -/
theorem fields_append (fs gs : List Field) (frame : Frame) :
    fields nested limits owner (fs ++ gs) frame = do
      let (r, added) ← part nested limits owner fs frame
      return r ++ (← fields nested limits owner gs (added ++ frame)) := by
  induction fs generalizing frame with
  | nil => simp [part]
  | cons f rest ih =>
    rw [List.cons_append]
    rcases f.isContent_or_derived with hf | ⟨width, content, rule, hk⟩
    · simp only [fields_content hf, part_content hf, ih, bind_assoc, pure_bind, List.cons_append]
    · simp only [fields_derived hk, part_derived hk, ih, bind_assoc, pure_bind, List.append_assoc,
        List.singleton_append]

/-- All fields are a part. -/
theorem fields_eq_part (fs : List Field) (frame : Frame) :
    fields nested limits owner fs frame = do
      let (r, _) ← part nested limits owner fs frame
      return r := by
  have h : fields nested limits owner (fs ++ []) frame = _ := fields_append fs [] frame
  simpa using h

/-! ### Sizes from the fields before -/

/-- A field that is sized by a sibling finds the same size in both frames. -/
def SameSize (kind : FieldKind) (frame frame' : Frame) : Prop :=
  ∀ sizeField rule, kind.governor? = some (sizeField, rule) →
    ∃ n, frame.lookup sizeField = some n ∧ frame'.lookup sizeField = some n

/-- Each field of a part that is sized by a sibling finds its size among the derived fields of the
part, or the same size in both frames. -/
def SameSizes (fs : List Field) (frame frame' : Frame) : Prop :=
  ∀ pre f post, fs = pre ++ f :: post → ∀ sizeField rule,
    f.kind.governor? = some (sizeField, rule) →
      (∃ d ∈ pre, d.name = sizeField ∧ ¬d.isContent) ∨
        ∃ n, frame.lookup sizeField = some n ∧ frame'.lookup sizeField = some n

namespace SameSizes

variable {f : Field} {rest : List Field}

theorem head (h : SameSizes (f :: rest) frame frame') : SameSize f.kind frame frame' := by
  intro sizeField rule hk
  rcases h [] f rest rfl sizeField rule hk with ⟨d, hd, -⟩ | h
  · cases hd
  · exact h

theorem tail_of_content (h : SameSizes (f :: rest) frame frame') (hf : f.isContent) :
    SameSizes rest frame frame' := by
  rintro pre g post rfl sizeField rule hk
  rcases h (f :: pre) g post rfl sizeField rule hk with ⟨d, hd, hname, hderived⟩ | h
  · rcases List.mem_cons.1 hd with rfl | hd
    · exact absurd hf hderived
    · exact .inl ⟨d, hd, hname, hderived⟩
  · exact .inr h

/-- A derived field of the part is in both frames from then on. -/
theorem tail_of_derived (h : SameSizes (f :: rest) frame frame') (n : UInt64) :
    SameSizes rest ((f.name, n) :: frame) ((f.name, n) :: frame') := by
  rintro pre g post rfl sizeField rule hk
  by_cases heq : sizeField = f.name
  · subst heq
    exact .inr ⟨n, List.lookup_cons_self, List.lookup_cons_self⟩
  rcases h (f :: pre) g post rfl sizeField rule hk with ⟨d, hd, hname, hderived⟩ | ⟨m, hm, hm'⟩
  · rcases List.mem_cons.1 hd with rfl | hd
    · exact absurd hname.symm heq
    · exact .inl ⟨d, hd, hname, hderived⟩
  · refine .inr ⟨m, ?_, ?_⟩
    · rwa [List.lookup_cons, beq_false_of_ne heq]
    · rwa [List.lookup_cons, beq_false_of_ne heq]

end SameSizes

theorem SameSize.governing {kind : FieldKind} (h : SameSize kind frame frame')
    {sizeField : String} {rule : Derivation} (hk : kind.governor? = some (sizeField, rule)) :
    Decode.governing owner frame sizeField = Decode.governing owner' frame' sizeField := by
  obtain ⟨n, hn, hn'⟩ := h sizeField rule hk
  rw [Decode.governing, Decode.governing, hn, hn']

/-- What a field is read as depends on the fields before it through its size alone. -/
theorem content_congr_frame {kind : FieldKind} (h : SameSize kind frame frame') :
    content nested limits owner frame kind = content nested limits owner' frame' kind := by
  cases kind with
  | variableBlob sizeField =>
    have hsize : governing owner frame sizeField = governing owner' frame' sizeField :=
      h.governing rfl
    simp only [content, hsize]
  | repeated item cardinality =>
    cases cardinality with
    | fixed count => rfl
    | counted sizeField =>
      have hsize : governing owner frame sizeField = governing owner' frame' sizeField :=
        h.governing rfl
      simp only [content, group, hsize]
    | budgeted sizeField =>
      have hsize : governing owner frame sizeField = governing owner' frame' sizeField :=
        h.governing rfl
      simp only [content, group, hsize]
  | _ => rfl

/-- A part is read the same where it finds the same sizes. -/
theorem part_congr {fs : List Field} (h : SameSizes fs frame frame') :
    part nested limits owner fs frame = part nested limits owner' fs frame' := by
  induction fs generalizing frame frame' with
  | nil => rfl
  | cons f rest ih =>
    rcases f.isContent_or_derived with hf | ⟨width, _, rule, hk⟩
    · rw [part_content hf, part_content hf, content_congr_frame h.head,
        ih (h.tail_of_content hf)]
    · rw [part_derived hk, part_derived hk]
      simp only [ih (h.tail_of_derived _)]

theorem fields_congr_frame {fs : List Field} (h : SameSizes fs frame frame') :
    fields nested limits owner fs frame = fields nested limits owner' fs frame' := by
  rw [fields_eq_part, fields_eq_part, part_congr h]

/-- The content of a part is that of its content fields, in order, and the derived fields of the
part are kept for the parts after it. -/
theorem names_of_part {fs : List Field} {r : Record} {added : Frame} {c c' : Cursor}
    (h : part nested limits owner fs frame c = .ok (r, added) c') :
    r.names = (fs.filter (·.isContent)).map (·.name) ∧
      added.map Prod.fst = ((fs.filter (!·.isContent)).map (·.name)).reverse := by
  induction fs generalizing frame c r added with
  | nil =>
    cases h
    exact ⟨rfl, rfl⟩
  | cons f rest ih =>
    rcases f.isContent_or_derived with hf | ⟨width, _, rule, hk⟩
    · rw [part_content hf] at h
      obtain ⟨v, c₁, -, h⟩ := Reader.bind_eq_ok_iff.1 h
      obtain ⟨⟨r', added'⟩, c₂, hrest, h⟩ := Reader.bind_eq_ok_iff.1 h
      cases h
      obtain ⟨hr, hadded⟩ := ih hrest
      constructor
      · rw [List.filter_cons_of_pos hf, List.map_cons, ← hr]
        rfl
      · rwa [List.filter_cons_of_neg (by simp [hf])]
    · rw [part_derived hk] at h
      have hf : f.isContent = false := by rw [Field.isContent, hk]
      obtain ⟨n, c₁, -, h⟩ := Reader.bind_eq_ok_iff.1 h
      obtain ⟨⟨r', added'⟩, c₂, hrest, h⟩ := Reader.bind_eq_ok_iff.1 h
      cases h
      obtain ⟨hr, hadded⟩ := ih hrest
      constructor
      · rwa [List.filter_cons_of_neg (by simp [hf])]
      · rw [List.filter_cons_of_pos (by simp [hf]), List.map_cons, List.reverse_cons, ← hadded,
          List.map_append]
        rfl

/-- The content of a part is that of its content fields. -/
theorem exists_content_of_names {fs : List Field} {r : Record}
    (h : r.names = (fs.filter (·.isContent)).map (·.name)) {p : String × Value} (hp : p ∈ r) :
    ∃ f ∈ fs, f.isContent ∧ f.name = p.1 := by
  have hmem : p.1 ∈ r.names := List.mem_map_of_mem hp
  rw [h] at hmem
  obtain ⟨f, hf, hname⟩ := List.mem_map.1 hmem
  obtain ⟨hf, hcontent⟩ := List.mem_filter.1 hf
  exact ⟨f, hf, hcontent, hname⟩

theorem names_of_fields {fs : List Field} {r : Record} {c c' : Cursor}
    (h : fields nested limits owner fs frame c = .ok r c') :
    r.names = (fs.filter (·.isContent)).map (·.name) := by
  rw [fields_eq_part] at h
  obtain ⟨⟨_, added⟩, c₁, hpart, h⟩ := Reader.bind_eq_ok_iff.1 h
  cases h
  exact (names_of_part hpart).1

end Decode

namespace Encode

variable {nested : String → Encoder} {s s' : Structure} {r r' : Record} {f : Field} {bs : Bytes}

/-! ### The owner of a field -/

section Owner

variable {content : Option Value}

theorem addSizes_eq_ok_congr {α : Type} {size size' : α → Except Error Nat}
    (h : ∀ x n, size x = .ok n ↔ size' x = .ok n) {total n : Nat} {xs : List α} :
    addSizes size total xs = .ok n ↔ addSizes size' total xs = .ok n := by
  induction xs generalizing total with
  | nil => rfl
  | cons x xs ih => simp only [addSizes, bind_eq_ok_iff, h, ih]

theorem itemSize_eq_ok_congr {item : Element} {x : Value} {n : Nat} :
    itemSize nested s f item x = .ok n ↔ itemSize nested s' f item x = .ok n := by
  cases item <;> cases x <;> simp [itemSize, mismatch]

/-- How a field is measured depends on the structure only for the text of errors. -/
theorem fieldSize_eq_ok_congr {n : Nat} :
    fieldSize nested s f content = .ok n ↔ fieldSize nested s' f content = .ok n := by
  unfold fieldSize
  cases f.kind with
  | variableBlob sizeField => simp only [bind_eq_ok_iff, bytesContent_eq_ok_iff]
  | embedded type => simp only [bind_eq_ok_iff, recordContent_eq_ok_iff]
  | repeated item cardinality =>
    have hitem : ∀ x n, itemSize nested s f item x = .ok n ↔ itemSize nested s' f item x = .ok n :=
      fun _ _ => itemSize_eq_ok_congr
    simp only [bind_eq_ok_iff, listContent_eq_ok_iff, addSizes_eq_ok_congr hitem]
  | _ => rfl

theorem item_eq_ok_congr {element : Element} {x : Value} :
    item nested s f element x = .ok bs ↔ item nested s' f element x = .ok bs := by
  cases element with
  | struct type => simp only [item_struct]
  | scalar width => simp only [item_scalar]
  | blob size => simp only [item_blob]

/-- A derived number is the same in two structures that both have the field that it describes, for
two values that agree on its content. -/
theorem derive_eq_ok_congr {xs ys : List Structure} (hs : s.Sound xs) (hs' : s'.Sound ys)
    (hf : f ∈ s.fields) (hf' : f ∈ s'.fields) (hget : r.get? f.name = r'.get? f.name)
    {rule : Derivation} {n : Nat} :
    derive nested s r f.name rule = .ok n ↔ derive nested s' r' f.name rule = .ok n := by
  cases rule with
  | byteLength =>
    simp only [derive_byteLength hs hf, derive_byteLength hs' hf', bytesContent_eq_ok_iff, hget]
  | itemCount =>
    simp only [derive_itemCount hs hf, derive_itemCount hs' hf', listContent_eq_ok_iff, hget]
  | groupSize =>
    rw [derive_groupSize hs hf, derive_groupSize hs' hf', hget]
    exact fieldSize_eq_ok_congr

/-- Two structures have a field in common, with what it describes if it is derived, and two values
have the same content for it. -/
structure Shared (s s' : Structure) (r r' : Record) (f : Field) : Prop where
  get?_eq : f.isContent → r.get? f.name = r'.get? f.name
  describes : ∀ width content rule, f.kind = .derived width content rule →
    ∃ g ∈ s.fields, g ∈ s'.fields ∧ g.name = content ∧ r.get? g.name = r'.get? g.name

/-- A field is written the same in two structures that share it. -/
theorem fieldBytes_eq_ok_congr {xs ys : List Structure} (hs : s.Sound xs) (hs' : s'.Sound ys)
    (h : Shared s s' r r' f) :
    fieldBytes nested s r f = .ok bs ↔ fieldBytes nested s' r' f = .ok bs := by
  cases hk : f.kind with
  | scalar width =>
    have hget := h.get?_eq (by rw [Field.isContent, hk])
    simp only [fieldBytes_scalar hk, scalarContent_eq_ok_iff, hget]
  | fixedBlob size =>
    have hget := h.get?_eq (by rw [Field.isContent, hk])
    simp only [fieldBytes_fixedBlob hk, bytesContent_eq_ok_iff, hget]
  | variableBlob sizeField =>
    have hget := h.get?_eq (by rw [Field.isContent, hk])
    simp only [fieldBytes_variableBlob hk, bytesContent_eq_ok_iff, hget]
  | embedded type =>
    have hget := h.get?_eq (by rw [Field.isContent, hk])
    simp only [fieldBytes_embedded hk, recordContent_eq_ok_iff, hget]
  | repeated element cardinality =>
    have hget := h.get?_eq (by rw [Field.isContent, hk])
    have hitem : ∀ x bs, item nested s f element x = .ok bs ↔ item nested s' f element x = .ok bs :=
      fun _ _ => item_eq_ok_congr
    simp only [fieldBytes_repeated hk, listContent_eq_ok_iff, hget, hitem]
  | derived width content rule =>
    obtain ⟨g, hg, hg', rfl, hget⟩ := h.describes width content rule hk
    simp only [fieldBytes_derived hk, derive_eq_ok_congr hs hs' hg hg' hget]

end Owner

/-! ### Writing part by part -/

/-- The bytes of some of the fields of a value, one after the other. -/
def part (nested : String → Encoder) (s : Structure) (r : Record) (fs : List Field) :
    Except Error Bytes := do
  return (← fs.mapM (fieldBytes nested s r)).flatten

/-- All fields are a part. -/
theorem write_eq_part : write nested s r = part nested s r s.fields := rfl

theorem part_cons (f : Field) (rest : List Field) :
    part nested s r (f :: rest) = do
      return (← fieldBytes nested s r f) ++ (← part nested s r rest) := by
  simp [part]

/-- Fields are written part by part. -/
theorem part_append (fs gs : List Field) :
    part nested s r (fs ++ gs) = do
      return (← part nested s r fs) ++ (← part nested s r gs) := by
  simp [part]

/-- A part is written the same in two structures that share its fields. -/
theorem part_eq_ok_congr {xs ys : List Structure} (hs : s.Sound xs) (hs' : s'.Sound ys)
    {fs : List Field} (h : ∀ f ∈ fs, Shared s s' r r' f) :
    part nested s r fs = .ok bs ↔ part nested s' r' fs = .ok bs := by
  induction fs generalizing bs with
  | nil => rfl
  | cons f rest ih =>
    have hfirst : ∀ bs, fieldBytes nested s r f = .ok bs ↔ fieldBytes nested s' r' f = .ok bs :=
      fun _ => fieldBytes_eq_ok_congr hs hs' (h f List.mem_cons_self)
    have hrest : ∀ bs, part nested s r rest = .ok bs ↔ part nested s' r' rest = .ok bs :=
      fun _ => ih fun g hg => h g (List.mem_cons_of_mem _ hg)
    simp only [part_cons, bind_eq_ok_iff, hfirst, hrest]

end Encode

end WireSchema
