import WireSchema.Proofs.Codec.Reach

/-!
# Writing to a buffer

A value can be written to the end of a buffer that holds other bytes already. Its fields are then
appended one by one, and those of nested structures where they stand; a failure leaves behind what
was appended before it.

* `Writer`: a computation that appends to a buffer.
* `Schema.append`: writes a value of a structure by name.
* `Writer.Appends`: a writer appends some bytes, or fails as making them does. It is kept by the
  ways in which writers are put together.
* `Schema.appends_write`: what is appended is what `Schema.write` makes.
-/

namespace WireSchema

/-- A computation that appends to a buffer and may fail. A failure leaves what was appended. -/
abbrev Writer := EStateM Error Bytes

namespace Writer

/-- Appends the given bytes. -/
def put (bs : Bytes) : Writer Unit := fun buffer => .ok () (buffer ++ bs)

/-- The outcome of a computation that does not concern the buffer. -/
def of {α : Type} (x : Except Error α) : Writer α := fun buffer =>
  match x with
  | .ok a => .ok a buffer
  | .error e => .error e buffer

/-- The writer appends the bytes that are made, or fails where they cannot be made, for the same
reason and with some of them appended. -/
structure Appends (w : Writer Unit) (made : Except Error Bytes) : Prop where
  ok : ∀ bs, made = .ok bs → ∀ buffer, w buffer = .ok () (buffer ++ bs)
  error : ∀ e, made = .error e → ∀ buffer, ∃ part, w buffer = .error e (buffer ++ part)

end Writer

open Writer

namespace Append

variable (encoder : String → Encoder) (nested : String → Record → Writer Unit)

/-- Appends an item of a group. -/
def item (owner : Structure) (f : Field) (item : Element) (content : Value) : Writer Unit :=
  match item, content with
  | .struct type, .record r => nested type r
  | item, content => do put (← of (Encode.item encoder owner f item content))

/-- Appends a field of a value. -/
def field (s : Structure) (r : Record) (f : Field) : Writer Unit :=
  match f.kind with
  | .embedded type => do nested type (← of (Encode.recordContent s f (r.get? f.name)))
  | .repeated element cardinality => do
    let items ← of (Encode.listContent s f (r.get? f.name))
    of (Encode.checkCount s f cardinality items)
    items.forM (item encoder nested s f element)
  | _ => do put (← of (Encode.fieldBytes encoder s r f))

/-- Appends the fields of a structure. -/
def write (s : Structure) (r : Record) : Writer Unit := s.fields.forM (field encoder nested s r)

end Append

/-- Appends the bytes of a value as structure `name`. -/
def Schema.append (schema : Schema) (name : String) (r : Record) : Writer Unit :=
  interpret (fun name _ => throw (.malformed (.unknownStructure name)))
    (Append.write schema.encoder) schema.structures name r

/-! ### What writers append -/

namespace Writer.Appends

variable {α : Type}

theorem throw (e : Error) : Appends (MonadExcept.throw e) (.error e) where
  ok _ h := nomatch h
  error e' h buffer := by
    cases h
    exact ⟨[], by rw [List.append_nil]; rfl⟩

/-- Bytes may be made first and then appended. -/
theorem emit (made : Except Error Bytes) : Appends (do put (← of made)) made where
  ok bs h buffer := by rw [h]; rfl
  error e h buffer := ⟨[], by rw [h, List.append_nil]; rfl⟩

/-- What comes after a step that does not concern the buffer. -/
theorem bind {x : Except Error α} {w : α → Writer Unit} {f : α → Except Error Bytes}
    (h : ∀ a, Appends (w a) (f a)) : Appends (of x >>= w) (x >>= f) := by
  cases x with
  | error e => exact throw e
  | ok a => exact h a

/-- One writer after another. -/
theorem append {w w' : Writer Unit} {first second : Except Error Bytes} (h : Appends w first)
    (h' : Appends w' second) :
    Appends (w >>= fun _ => w') (do return (← first) ++ (← second)) where
  ok bs hbs buffer := by
    obtain ⟨front, hfront, hbs⟩ := bind_eq_ok_iff.1 hbs
    obtain ⟨back, hback, hbs⟩ := bind_eq_ok_iff.1 hbs
    cases hbs
    rw [Reader.bind_of_ok (h.ok front hfront buffer), h'.ok back hback, List.append_assoc]
  error e he buffer := by
    rcases bind_eq_error_iff.1 he with hfront | ⟨front, hfront, he⟩
    · obtain ⟨part, hpart⟩ := h.error e hfront buffer
      exact ⟨part, Reader.bind_of_error hpart⟩
    · rcases bind_eq_error_iff.1 he with hback | ⟨back, -, he⟩
      · obtain ⟨part, hpart⟩ := h'.error e hback (buffer ++ front)
        refine ⟨front ++ part, ?_⟩
        rw [Reader.bind_of_ok (h.ok front hfront buffer), hpart, List.append_assoc]
      · cases he

/-- Writers for all items of a list. -/
theorem forM {w : α → Writer Unit} {f : α → Except Error Bytes} {xs : List α}
    (h : ∀ x ∈ xs, Appends (w x) (f x)) :
    Appends (xs.forM w) (do return (← xs.mapM f).flatten) := by
  induction xs with
  | nil =>
    constructor
    · intro bs hbs buffer
      cases hbs
      exact congrArg (EStateM.Result.ok ()) (List.append_nil buffer).symm
    · intro e he
      cases he
  | cons x xs ih =>
    have hrest := ih fun y hy => h y (List.mem_cons_of_mem _ hy)
    have hall := (h x List.mem_cons_self).append hrest
    simp only [bind_assoc, pure_bind] at hall
    simp only [List.mapM_cons, bind_assoc, pure_bind, List.flatten_cons]
    exact hall

/-- What has been appended was made. -/
theorem exists_of_ok {w : Writer Unit} {made : Except Error Bytes} (h : Appends w made)
    {buffer out : Bytes} (hw : w buffer = .ok () out) :
    ∃ bs, made = .ok bs ∧ out = buffer ++ bs := by
  cases hmade : made with
  | ok bs =>
    cases hw.symm.trans (h.ok bs hmade buffer)
    exact ⟨bs, rfl, rfl⟩
  | error e =>
    obtain ⟨part, hpart⟩ := h.error e hmade buffer
    cases hw.symm.trans hpart

end Writer.Appends

/-! ### Structures -/

namespace Append

variable {encoder : String → Encoder} {nested : String → Record → Writer Unit} {s : Structure}
  {f : Field}

/-- The structures that a kind of field refers to are appended as they are written. -/
def Mirrored (encoder : String → Encoder) (nested : String → Record → Writer Unit)
    (kind : FieldKind) : Prop :=
  ∀ type ∈ kind.references, ∀ r, Appends (nested type r) ((encoder type).write r)

theorem Mirrored.item {element : Element} {cardinality : Cardinality}
    (hn : Mirrored encoder nested (.repeated element cardinality)) (x : Value) :
    Appends (item encoder nested s f element x) (Encode.item encoder s f element x) := by
  unfold Append.item
  split
  · next type r => exact hn type (List.mem_singleton_self type) r
  · exact .emit _

theorem Mirrored.field (hn : Mirrored encoder nested f.kind) (r : Record) :
    Appends (field encoder nested s r f) (Encode.fieldBytes encoder s r f) := by
  cases hk : f.kind with
  | embedded type =>
    rw [hk] at hn
    simp only [Append.field, Encode.fieldBytes, hk]
    exact .bind fun inner => hn type (List.mem_singleton_self type) inner
  | repeated element cardinality =>
    rw [hk] at hn
    simp only [Append.field, Encode.fieldBytes, hk]
    exact .bind fun items => .bind fun _ => .forM fun x _ => hn.item x
  | _ =>
    simp only [Append.field, hk]
    exact .emit _

/-- A structure is appended field by field. -/
theorem appends_write (hn : ∀ f ∈ s.fields, Mirrored encoder nested f.kind) (r : Record) :
    Appends (write encoder nested s r) (Encode.write encoder s r) :=
  .forM fun f hf => (hn f hf).field r

theorem item_congr {nested' : String → Record → Writer Unit} {element : Element}
    {cardinality : Cardinality}
    (h : (FieldKind.repeated element cardinality).Agree nested nested') :
    item encoder nested s f element = item encoder nested' s f element := by
  funext content
  cases element with
  | struct type => cases content <;> simp only [item, h type (List.mem_singleton_self type)]
  | scalar width => cases content <;> rfl
  | blob size => cases content <;> rfl

/-- Appending looks no further than the structures that the fields refer to. -/
theorem local_write (encoder : String → Encoder) : Local (write encoder) := by
  intro s nested nested' h
  funext r
  refine forM_congr fun f hf => ?_
  have hkind : f.kind.Agree nested nested' := h f hf
  unfold field
  cases hk : f.kind with
  | embedded type =>
    rw [hk] at hkind
    simp only [hkind type (List.mem_singleton_self type)]
  | repeated element cardinality =>
    rw [hk] at hkind
    simp only [item_congr hkind]
  | _ => rfl

end Append

/-- What is appended for a value is what is written for it. -/
theorem Schema.appends_write {schema : Schema} (h : Layered schema.structures) (name : String)
    (r : Record) : Appends (schema.append name r) (schema.write name r) := by
  induction name using h.induction generalizing r with
  | unknown name hs =>
    rw [append, write, encoder, interpret_of_find_eq_none _ _ hs, interpret_of_find_eq_none _ _ hs]
    exact .throw _
  | step name s hs ih =>
    rw [append, h.interpret_of_find _ _ (Append.local_write _) hs, write_of_find h hs]
    exact Append.appends_write ih r

end WireSchema
