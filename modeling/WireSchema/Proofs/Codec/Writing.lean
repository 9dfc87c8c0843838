import WireSchema.Codec.Encode
import WireSchema.Proofs.Resolve.Layered

/-!
# What the steps of writing do

A field is written from the content that the value holds under its name, or from the empty content
where it holds none. The lemmas here say, for each kind of field, which content is written and to
which bytes; `Encode.write_eq_ok_iff` says so of a structure as a whole.
-/

namespace WireSchema

namespace Encode

/-! ### Content -/

section Content

variable {owner : Structure} {f : Field} {content : Option Value}

theorem scalarContent_eq_ok_iff {n : UInt64} :
    scalarContent owner f content = .ok n ↔
      content = none ∧ n = 0 ∨ content = some (.uint n) := by
  rcases content with _ | (_ | _ | _ | _) <;> simp [scalarContent, mismatch, eq_comm]

theorem bytesContent_eq_ok_iff {data : Bytes} :
    bytesContent owner f content = .ok data ↔
      content = none ∧ data = [] ∨ content = some (.bytes data) := by
  rcases content with _ | (_ | _ | _ | _) <;> simp [bytesContent, mismatch, eq_comm]

theorem recordContent_eq_ok_iff {r : Record} :
    recordContent owner f content = .ok r ↔
      content = none ∧ r = [] ∨ content = some (.record r) := by
  rcases content with _ | (_ | _ | _ | _) <;> simp [recordContent, mismatch, eq_comm]

theorem listContent_eq_ok_iff {items : List Value} :
    listContent owner f content = .ok items ↔
      content = none ∧ items = [] ∨ content = some (.list items) := by
  rcases content with _ | (_ | _ | _ | _) <;> simp [listContent, mismatch, eq_comm]

theorem checkCount_eq_ok_iff {cardinality : Cardinality} {items : List Value} {u : Unit} :
    checkCount owner f cardinality items = .ok u ↔
      ∀ count, cardinality = .fixed count → items.length = count := by
  cases cardinality with
  | fixed count =>
    by_cases h : items.length = count <;> simp [checkCount, h]
  | _ => simp [checkCount]

end Content

/-! ### Fields -/

section Fields

variable {nested : String → Encoder} {s : Structure} {r : Record} {f : Field} {bs : Bytes}

theorem fieldBytes_scalar {width : Width} (hk : f.kind = .scalar width) :
    fieldBytes nested s r f = .ok bs ↔
      ∃ n, scalarContent s f (r.get? f.name) = .ok n ∧ width.encode n.toNat = .ok bs := by
  simp only [fieldBytes, hk, bind_eq_ok_iff]

theorem fieldBytes_fixedBlob {size : Nat} (hk : f.kind = .fixedBlob size) :
    fieldBytes nested s r f = .ok bs ↔
      ∃ data, bytesContent s f (r.get? f.name) = .ok data ∧ fit data size = .ok bs := by
  simp only [fieldBytes, hk, bind_eq_ok_iff]

theorem fieldBytes_variableBlob {sizeField : String} (hk : f.kind = .variableBlob sizeField) :
    fieldBytes nested s r f = .ok bs ↔ bytesContent s f (r.get? f.name) = .ok bs := by
  simp only [fieldBytes, hk]

theorem fieldBytes_embedded {type : String} (hk : f.kind = .embedded type) :
    fieldBytes nested s r f = .ok bs ↔
      ∃ inner, recordContent s f (r.get? f.name) = .ok inner ∧
        (nested type).write inner = .ok bs := by
  simp only [fieldBytes, hk, bind_eq_ok_iff]

theorem fieldBytes_repeated {element : Element} {cardinality : Cardinality}
    (hk : f.kind = .repeated element cardinality) :
    fieldBytes nested s r f = .ok bs ↔
      ∃ items chunks, listContent s f (r.get? f.name) = .ok items ∧
        (∀ count, cardinality = .fixed count → items.length = count) ∧
        List.Forall₂ (fun x chunk => item nested s f element x = .ok chunk) items chunks ∧
        bs = chunks.flatten := by
  simp only [fieldBytes, hk, bind_eq_ok_iff, pure_eq_ok_iff, checkCount_eq_ok_iff, mapM_eq_ok_iff]
  constructor
  · rintro ⟨items, hitems, _, hcount, chunks, hchunks, rfl⟩
    exact ⟨items, chunks, hitems, hcount, hchunks, rfl⟩
  · rintro ⟨items, chunks, hitems, hcount, hchunks, rfl⟩
    exact ⟨items, hitems, (), hcount, chunks, hchunks, rfl⟩

theorem fieldBytes_derived {width : Width} {content : String} {rule : Derivation}
    (hk : f.kind = .derived width content rule) :
    fieldBytes nested s r f = .ok bs ↔
      ∃ n, derive nested s r content rule = .ok n ∧ width.encode n = .ok bs := by
  simp only [fieldBytes, hk, bind_eq_ok_iff]

theorem write_eq_ok_iff :
    write nested s r = .ok bs ↔
      ∃ chunks, List.Forall₂ (fun f chunk => fieldBytes nested s r f = .ok chunk) s.fields chunks ∧
        bs = chunks.flatten := by
  simp only [write, bind_eq_ok_iff, pure_eq_ok_iff, mapM_eq_ok_iff, eq_comm (a := bs)]

end Fields

/-! ### Derived numbers -/

/-- The field of a name is found. -/
theorem field_eq_ok {below : List Structure} {s : Structure} (hs : s.Sound below) {f : Field}
    (hf : f ∈ s.fields) : field s f.name = .ok f := by
  have hfind : s.field? f.name = some f := Field.find?_eq_of_mem hs.distinct hf
  rw [Encode.field, hfind]

section Derive

variable {nested : String → Encoder} {below : List Structure} {s : Structure} {r : Record}
  {f : Field} {n : Nat}

theorem derive_byteLength (hs : s.Sound below) (hf : f ∈ s.fields) :
    derive nested s r f.name .byteLength = .ok n ↔
      ∃ data, bytesContent s f (r.get? f.name) = .ok data ∧ data.length = n := by
  simp only [derive, field_eq_ok hs hf, bind_eq_ok_iff, pure_eq_ok_iff, Except.ok.injEq,
    exists_eq_left']

theorem derive_itemCount (hs : s.Sound below) (hf : f ∈ s.fields) :
    derive nested s r f.name .itemCount = .ok n ↔
      ∃ items, listContent s f (r.get? f.name) = .ok items ∧ items.length = n := by
  simp only [derive, field_eq_ok hs hf, bind_eq_ok_iff, pure_eq_ok_iff, Except.ok.injEq,
    exists_eq_left']

theorem derive_groupSize (hs : s.Sound below) (hf : f ∈ s.fields) :
    derive nested s r f.name .groupSize = fieldSize nested s f (r.get? f.name) := by
  simp only [derive, field_eq_ok hs hf, bind, Except.bind]

end Derive

/-! ### Items -/

section Items

variable {nested : String → Encoder} {s : Structure} {f : Field} {x : Value} {bs : Bytes}

theorem item_struct {type : String} :
    item nested s f (.struct type) x = .ok bs ↔
      ∃ r, x = .record r ∧ (nested type).write r = .ok bs := by
  cases x <;> simp [item, mismatch]

theorem item_scalar {width : Width} :
    item nested s f (.scalar width) x = .ok bs ↔
      ∃ n, x = .uint n ∧ width.encode n.toNat = .ok bs := by
  cases x <;> simp [item, mismatch]

theorem item_blob {size : Nat} :
    item nested s f (.blob size) x = .ok bs ↔
      ∃ data, x = .bytes data ∧ fit data size = .ok bs := by
  cases x <;> simp [item, mismatch]

end Items

end Encode

end WireSchema
