import WireSchema.Proofs.Resolve.Dependency
import WireSchema.Proofs.Resolve.Range

/-!
# Resolving on a machine

Resolution is described by names: a binding names the field that is sized, a path is cut at a name,
and names that are taken are remembered. A machine keeps fields and paths in arrays and works with
places in them, it adds up sizes in words, and it can nest calls only so deep. An index that is out
of range stops it, as does a call that is nested too deep; this is no refusal of the document.

`Machine.resolve` is resolution as a machine does it. What it shares with `Schema.resolve` are the
steps that touch neither places nor sums.

* `Simulates`: a computation on a machine comes to what another computation comes to.
* `Machine.bindAt_eq`: a binding by place is one by name.
* `Machine.resolve_eq`: the machine refuses the documents that are refused, gives the others their
  schema, and is stopped by none.
-/

namespace WireSchema

/-- Why a machine stops short of a result. -/
inductive Halt where
  /-- The document is refused. -/
  | refused (e : SchemaError)
  /-- An index is out of range, or a call is nested too deep. -/
  | panicked
deriving DecidableEq, Repr

namespace Machine

variable {α β γ δ : Type}

/-- The document is refused. -/
def refuse (e : SchemaError) : Except Halt α := .error (.refused e)

/-- A computation in which there is nothing to stop a machine. -/
def lift (x : Except SchemaError α) : Except Halt α := x.mapError .refused

/-- The entry at a place. -/
def index (xs : List α) (i : Nat) : Except Halt α :=
  match xs[i]? with
  | some x => .ok x
  | none => .error .panicked

/-- The entries from one place on and before another. -/
def slice (xs : List α) (start stop : Nat) : Except Halt (List α) :=
  if start ≤ stop ∧ stop ≤ xs.length then .ok ((xs.take stop).drop start) else .error .panicked

/-- The list with another entry at a place. -/
def store (xs : List α) (i : Nat) (x : α) : Except Halt (List α) :=
  if i < xs.length then .ok (xs.set i x) else .error .panicked

/-! ### A layout that is put together -/

/-- A field that waits for the sibling that holds its size, by its place. -/
structure Slot where
  index : Nat
  sizeField : String
  rule : Derivation
deriving DecidableEq, Repr

/-- The part of a layout that is put together so far. -/
structure Draft where
  fields : List Field := []
  constants : List Constant := []
  slots : List Slot := []
deriving DecidableEq, Repr

/-- The part with one more contribution, whose first field is the one that waits, if any does. -/
def Draft.add (draft : Draft) (p : Piece) : Draft where
  fields := draft.fields ++ p.fields
  constants := draft.constants ++ p.constants
  slots := draft.slots ++ p.bindings.map fun b => ⟨draft.fields.length, b.sizeField, b.rule⟩

/-- Refuses the field at a place if it has the name of an earlier one or of a constant. -/
def checkName (owner : String) (draft : Draft) (entry : Field × Nat) : Except Halt Unit := do
  let (f, i) := entry
  let earlier ← slice draft.fields 0 i
  if earlier.any (·.name = f.name) || draft.constants.any (·.name = f.name) then
    refuse (.duplicateField owner f.name)
  else .ok ()

/-- Refuses fields that share a name with each other or with a constant. -/
def checkNames (owner : String) (draft : Draft) : Except Halt Unit :=
  draft.fields.zipIdx.forM (checkName owner draft)

/-- The fields with the size field of the one that waits turned into a derived field. -/
def bindAt (owner : String) (fields : List Field) (slot : Slot) : Except Halt (List Field) := do
  let content ← index fields slot.index
  match fields.findIdx? (·.name = slot.sizeField) with
  | none => refuse (.unknownSizeField owner content.name slot.sizeField)
  | some position =>
    if slot.index ≤ position then
      refuse (.sizeAfterContent owner content.name slot.sizeField)
    else
      let carrier ← index fields position
      let width ← lift (carrierWidth owner carrier)
      store fields position { carrier with kind := .derived width content.name slot.rule }

/-- The structure of the given name whose layout is the given one. -/
def assemble (structures : List Structure) (name : String) (draft : Draft) :
    Except Halt Structure := do
  checkNames name draft
  let fields ← draft.slots.foldlM (bindAt name) draft.fields
  return {
    name := name
    fields := fields
    constants := draft.constants
    fixedSize := (fixedSizeOf structures fields).map UInt64.toNat
    minSize := (minSizeOf structures fields).toNat }

/-! ### The walk -/

/-- The list of structures with the one that an attribute depends on. -/
def layDependency
    (visit : String → List Attribute → List Structure → Except Halt (List Structure))
    (d : Document) (a : Attribute) (structures : List Structure) :
    Except Halt (List Structure) :=
  match a.dependency? d with
  | some (type, layout) => visit type layout structures
  | none => .ok structures

/-- The layout of the given attributes after those that were laid out before, each after the
structure that it depends on. -/
def layAttributes
    (visit : String → List Attribute → List Structure → Except Halt (List Structure))
    (d : Document) (owner : String) :
    List Attribute → Draft → List Structure → Except Halt (List Structure × Draft)
  | [], draft, structures => .ok (structures, draft)
  | a :: rest, draft, structures => do
    let structures ← layDependency visit d a structures
    let p ← lift (a.piece d structures owner)
    layAttributes visit d owner rest (draft.add p) structures

/-- The list of structures with the structure `name` and all that it depends on. The structures that
wait for this one are given in the order in which they were visited, and calls may be nested as deep
as there is `room`. -/
def visit (d : Document) :
    (room : Nat) → (waiting : List String) → String → List Attribute → List Structure →
      Except Halt (List Structure)
  | room, waiting, name, layout, structures =>
    if (findStructure? structures name).isSome then .ok structures
    else
      match waiting.findIdx? (· = name) with
      | some start => do
        let path ← slice waiting start waiting.length
        refuse (.cycle (path ++ [name]))
      | none =>
        match room with
        | 0 => .error .panicked
        | room + 1 => do
          let (structures, draft) ←
            layAttributes (visit d room (waiting ++ [name])) d name layout {} structures
          return (← assemble structures name draft) :: structures

/-- The schema with one more type of the document. -/
def addType (d : Document) (schema : Schema) (name : String) :
    Descriptor → Except Halt Schema
  | .struct layout => do
    return { schema with
      structures := ← visit d d.types.length [] name layout schema.structures }
  | descriptor => lift (schema.addType d name descriptor)

/-- The schema of a document. -/
def resolve (d : Document) : Except Halt Schema :=
  d.types.foldlM (fun schema (name, descriptor) => addType d schema name descriptor) .empty

/-! ### The machine does the same -/

/-- The machine refuses what is refused, and has a result that is related to any other result. -/
def Simulates (R : α → β → Prop) (x : Except SchemaError α) (m : Except Halt β) : Prop :=
  match x with
  | .ok a => ∃ b, m = .ok b ∧ R a b
  | .error e => m = refuse e

namespace Simulates

variable {R : α → β → Prop} {S : γ → δ → Prop} {x : Except SchemaError α} {m : Except Halt β}

theorem bind {f : α → Except SchemaError γ} {g : β → Except Halt δ} (h : Simulates R x m)
    (hfg : ∀ a b, x = .ok a → R a b → Simulates S (f a) (g b)) :
    Simulates S (x >>= f) (m >>= g) := by
  cases x with
  | error e =>
    obtain rfl : m = refuse e := h
    rfl
  | ok a =>
    obtain ⟨b, rfl, hab⟩ := h
    exact hfg a b rfl hab

theorem ok {a : α} {b : β} (h : R a b) : Simulates R (.ok a) (.ok b) := ⟨b, rfl, h⟩

/-- What is made of a result without a machine does not show on it. -/
theorem map {f : α → γ} {T : γ → β → Prop} (h : Simulates R x m) (hf : ∀ a b, R a b → T (f a) b) :
    Simulates T (x >>= fun a => .ok (f a)) m := by
  cases x with
  | error e => exact h
  | ok a =>
    obtain ⟨b, rfl, hab⟩ := h
    exact .ok (hf a b hab)

/-- With the same result, the machine does nothing else. -/
theorem eq_lift {m : Except Halt α} (h : Simulates Eq x m) : m = lift x := by
  cases x with
  | error e => exact h
  | ok a =>
    obtain ⟨b, rfl, rfl⟩ := h
    rfl

end Simulates

theorem simulates_lift (x : Except SchemaError α) : Simulates Eq x (lift x) := by
  cases x with
  | error e => rfl
  | ok a => exact .ok rfl

theorem index_eq {xs : List α} {i : Nat} {x : α} (h : xs[i]? = some x) : index xs i = .ok x := by
  rw [index, h]

/-! #### Names -/

section Names

variable {owner : String} {draft : Draft}

theorem slice_front {front rest : List α} : slice (front ++ rest) 0 front.length = .ok front := by
  rw [slice, if_pos ⟨Nat.zero_le _, by simp⟩, List.take_left, List.drop_zero]

theorem slice_back {front rest : List α} :
    slice (front ++ rest) front.length (front ++ rest).length = .ok rest := by
  rw [slice, if_pos ⟨by simp, Nat.le_refl _⟩, List.take_length, List.drop_left]

/-- The rest of the fields is checked against the names that are taken by then. -/
theorem checkNames_rest {front rest : List Field} {taken : List String}
    (hfields : draft.fields = front ++ rest)
    (htaken : ∀ name, name ∈ taken ↔
      (∃ f ∈ front, f.name = name) ∨ ∃ c ∈ draft.constants, c.name = name) :
    (rest.zipIdx front.length).forM (checkName owner draft) =
      match firstTaken? taken rest with
      | some f => refuse (.duplicateField owner f.name)
      | none => .ok () := by
  induction rest generalizing front taken with
  | nil => rfl
  | cons f rest ih =>
    have hearlier : slice draft.fields 0 front.length = .ok front := by
      rw [hfields]
      exact slice_front
    have hcheck : (front.any (·.name = f.name) || draft.constants.any (·.name = f.name)) = true ↔
        f.name ∈ taken := by
      rw [htaken, Bool.or_eq_true, List.any_eq_true, List.any_eq_true]
      simp only [decide_eq_true_eq]
    have hstep : checkName owner draft (f, front.length) =
        if f.name ∈ taken then refuse (.duplicateField owner f.name) else .ok () := by
      simp only [checkName, hearlier, bind, Except.bind, hcheck]
    rw [List.zipIdx_cons, List.forM, hstep, firstTaken?]
    by_cases hf : f.name ∈ taken
    · simp only [if_pos hf]
      rfl
    · simp only [if_neg hf]
      have hlength : front.length + 1 = (front ++ [f]).length := by simp
      rw [hlength]
      refine ih (by rw [hfields, List.append_assoc, List.singleton_append]) fun name => ?_
      rw [List.mem_cons, htaken]
      simp only [List.mem_append, List.mem_singleton]
      grind

/-- A field is refused for its name where the name is taken. -/
theorem checkNames_eq {p : Piece} (hfields : draft.fields = p.fields)
    (hconstants : draft.constants = p.constants) :
    checkNames owner draft = lift (checkDistinct owner p) := by
  have htaken : ∀ name, name ∈ p.constants.map (·.name) ↔
      (∃ f ∈ ([] : List Field), f.name = name) ∨ ∃ c ∈ draft.constants, c.name = name := by
    simp [hconstants]
  refine (checkNames_rest (List.nil_append _).symm htaken).trans ?_
  rw [checkDistinct, hfields]
  cases firstTaken? (p.constants.map (·.name)) p.fields <;> rfl

end Names

/-! #### Places -/

/-- Among fields of the given names, the binding and the place say the same. -/
structure Places (names : List String) (b : Binding) (slot : Slot) : Prop where
  sizeField : slot.sizeField = b.sizeField
  rule : slot.rule = b.rule
  content : names[slot.index]? = some b.content

section Places

variable {owner : String} {fields : List Field} {b : Binding} {slot : Slot}

/-- A place cuts the fields where the field of its name stands. -/
theorem Places.split (h : Places (fields.map (·.name)) b slot) :
    ∃ front f back, fields = front ++ f :: back ∧ front.length = slot.index ∧
      f.name = b.content := by
  have hplace := h.content
  rw [List.getElem?_map, Option.map_eq_some_iff] at hplace
  obtain ⟨f, hf, hname⟩ := hplace
  obtain ⟨hlt, rfl⟩ := List.getElem?_eq_some_iff.1 hf
  refine ⟨fields.take slot.index, fields[slot.index], fields.drop (slot.index + 1), ?_, ?_, hname⟩
  · rw [← List.drop_eq_getElem_cons hlt, List.take_append_drop]
  · exact List.length_take_of_le (Nat.le_of_lt hlt)

theorem index_append {early late : List α} {x : α} :
    index (early ++ x :: late) early.length = .ok x :=
  index_eq (by simp)

/-- The first entry of a kind is found at its place. -/
theorem findIdx?_append_cons {p : α → Bool} {early late : List α} {x : α}
    (hearly : ∀ y ∈ early, p y = false) (hx : p x) :
    (early ++ x :: late).findIdx? p = some early.length := by
  rw [List.findIdx?_append, List.findIdx?_eq_none_iff.2 hearly, List.findIdx?_cons, if_pos hx]
  simp

/-- Only the carrier has its name, so putting another field in its place is all that settling its
binding does. -/
theorem store_eq {early late : List Field} {carrier : Field} {width : Width}
    (hn : ((early ++ carrier :: late).map (·.name)).Nodup) (hcarrier : carrier.name = b.sizeField) :
    store (early ++ carrier :: late) early.length
        { carrier with kind := .derived width b.content b.rule } =
      .ok ((early ++ carrier :: late).map (b.settle width)) := by
  rw [List.map_append, List.map_cons, List.nodup_middle, List.nodup_cons, ← List.map_append] at hn
  have hother : ∀ f ∈ early ++ late, b.settle width f = f := by
    intro f hf
    refine if_neg fun hname => hn.1 ?_
    rw [hcarrier, ← hname]
    exact List.mem_map_of_mem hf
  have hsame : ∀ xs : List Field, xs ⊆ early ++ late → xs.map (b.settle width) = xs := by
    intro xs hxs
    exact (List.map_congr_left fun f hf => hother f (hxs hf)).trans xs.map_id
  have hsettled : b.settle width carrier =
      { carrier with kind := .derived width b.content b.rule } := if_pos hcarrier
  rw [store, if_pos (by simp), List.map_append, List.map_cons, hsettled,
    hsame early (List.subset_append_left ..), hsame late (List.subset_append_right ..)]
  simp

/-- A binding by place does what one by name does. -/
theorem bindAt_eq (hn : (fields.map (·.name)).Nodup) (h : Places (fields.map (·.name)) b slot) :
    bindAt owner fields slot = lift (bindSize owner fields b) := by
  obtain ⟨front, f, back, rfl, hindex, hname⟩ := h.split
  have hcontent : index (front ++ f :: back) slot.index = .ok f := hindex ▸ index_append
  have hfront : (front ++ f :: back).takeWhile (·.name ≠ b.content) = front := by
    rw [List.takeWhile_append_of_pos]
    · simp [hname]
    · intro g hg
      rw [List.map_append, List.nodup_append] at hn
      have hne := hn.2.2 g.name (List.mem_map_of_mem hg) f.name (by simp)
      simpa [← hname] using hne
  unfold bindAt bindSize sizeCarrier
  rw [hcontent, hfront]
  simp only [bind, Except.bind, h.sizeField, h.rule, hname]
  cases hfind : front.find? (·.name = b.sizeField) with
  | some carrier =>
    obtain ⟨hcarrier, early, late, rfl, hearly⟩ := List.find?_eq_some_iff_append.1 hfind
    have hposition : ((early ++ carrier :: late) ++ f :: back).findIdx? (·.name = b.sizeField) =
        some early.length := by
      rw [List.append_assoc]
      exact findIdx?_append_cons (fun y hy => by simpa using hearly y hy) hcarrier
    have hbefore : ¬ slot.index ≤ early.length := by
      rw [← hindex, List.length_append, List.length_cons]
      omega
    rw [List.append_assoc, List.cons_append] at hposition hn ⊢
    rw [hposition]
    simp only [if_neg hbefore, index_append]
    cases carrierWidth owner carrier with
    | error e => rfl
    | ok width => exact store_eq hn (by simpa using hcarrier)
  | none =>
    have hnone : ∀ g ∈ front, decide (g.name = b.sizeField) = false := by
      intro g hg
      simpa using List.find?_eq_none.1 hfind g hg
    rw [List.findIdx?_append, List.findIdx?_eq_none_iff.2 hnone, Option.none_or]
    have hany : (front ++ f :: back).any (·.name = b.sizeField) =
        ((f :: back).findIdx? (·.name = b.sizeField)).isSome := by
      have hfalse : front.any (·.name = b.sizeField) = false :=
        List.any_eq_false.2 fun g hg => by simpa using hnone g hg
      rw [List.findIdx?_isSome, List.any_append, hfalse, Bool.false_or]
    rw [hany]
    cases hlater : (f :: back).findIdx? (·.name = b.sizeField) with
    | none => rfl
    | some later =>
      have hafter : slot.index ≤ later + front.length := by omega
      simp only [Option.map_some, if_pos hafter]
      rfl

end Places

/-! #### Structures -/

/-- The draft is the given part of a layout, with places for its bindings. -/
structure Mirrors (p : Piece) (draft : Draft) : Prop where
  fields : draft.fields = p.fields
  constants : draft.constants = p.constants
  slots : List.Forall₂ (Places (p.fields.map (·.name))) p.bindings draft.slots

theorem Mirrors.empty : Mirrors {} {} := ⟨rfl, rfl, .nil⟩

/-- A contribution in which the first field is the one that waits, if any does. -/
def Leads (p : Piece) : Prop := ∀ b ∈ p.bindings, (p.fields.map (·.name))[0]? = some b.content

theorem Mirrors.add {p q : Piece} {draft : Draft} (h : Mirrors p draft) (hq : Leads q) :
    Mirrors (p ++ q) (draft.add q) where
  fields := congrArg (· ++ q.fields) h.fields
  constants := congrArg (· ++ q.constants) h.constants
  slots := by
    have hnames : (p ++ q).fields.map (·.name) = p.fields.map (·.name) ++ q.fields.map (·.name) :=
      List.map_append
    rw [hnames]
    refine List.rel_append (h.slots.imp fun b slot hb => ?_) ?_
    · have hlt := (List.getElem?_eq_some_iff.1 hb.content).1
      exact ⟨hb.sizeField, hb.rule, (List.getElem?_append_left hlt).trans hb.content⟩
    · rw [List.forall₂_map_right_iff, List.forall₂_same]
      intro b hb
      refine ⟨rfl, rfl, ?_⟩
      rw [List.getElem?_append_right (by simp [h.fields]), h.fields, List.length_map, Nat.sub_self]
      exact hq b hb

theorem leads_piece {d : Document} {below : List Structure} {owner : String} {a : Attribute}
    {p : Piece} (hp : a.piece d below owner = .ok p) : Leads p := by
  rcases hdisp : a.disposition with _ | (_ | _)
  · obtain ⟨name, kind, -, -, -, rfl⟩ := (Attribute.piece_field_iff hdisp).1 hp
    intro b hb
    have hbinding : b ∈ Field.bindings ⟨name, kind⟩ := hb
    unfold Field.bindings at hbinding
    split at hbinding
    · rw [List.mem_singleton.1 hbinding]
      rfl
    · cases hbinding
  · obtain ⟨-, s, -, rfl⟩ := (Attribute.piece_inline_iff hdisp).1 hp
    exact nofun
  · obtain ⟨c, -, rfl⟩ := (Attribute.piece_const_iff hdisp).1 hp
    exact nofun

section Structures

variable {structures : List Structure} {name : String} {p : Piece} {draft : Draft}

/-- Bindings by place do what those by name do. -/
theorem foldlM_bindAt_eq {fields : List Field} {bs : List Binding} {slots : List Slot}
    {names : List String} (hnames : fields.map (·.name) = names) (hn : names.Nodup)
    (h : List.Forall₂ (Places names) bs slots) :
    slots.foldlM (bindAt name) fields = lift (bs.foldlM (bindSize name) fields) := by
  induction h generalizing fields with
  | nil => rfl
  | @cons b slot bs slots hb _ ih =>
    subst hnames
    rw [List.foldlM_cons, List.foldlM_cons, bindAt_eq hn hb]
    refine ((simulates_lift _).bind fun bound bound' hbound heq => ?_).eq_lift
    subst heq
    -- binding a field changes no name
    obtain ⟨carrier, width, -, -, rfl⟩ := bindSize_eq_ok_iff.1 hbound
    rw [ih (by simp)]
    exact simulates_lift _

/-- The structure that is put together is the one that is assembled. -/
theorem assemble_eq (htable : TableInRange structures) (hp : FieldsInRange p.fields)
    (h : Mirrors p draft) :
    assemble structures name draft = lift (WireSchema.assemble structures name p) := by
  refine Simulates.eq_lift ?_
  refine Simulates.bind (R := Eq) ?_ fun _ _ hdistinct _ => ?_
  · rw [checkNames_eq h.fields h.constants]
    exact simulates_lift _
  have hn := (checkDistinct_eq_ok_iff.1 hdistinct).1
  refine Simulates.bind (R := Eq) ?_ fun fields bound hfields hbound => ?_
  · rw [h.fields, foldlM_bindAt_eq rfl hn h.slots]
    exact simulates_lift _
  obtain rfl := hbound
  have hrange := inRange_bindSizes hfields hp
  refine .ok ?_
  rw [toNat_fixedSizeOf htable hrange, toNat_minSizeOf htable hrange, h.constants]

end Structures

/-! #### The walk -/

section Walk

variable {d : Document} {path : List String} {name : String} {layout : List Attribute}
  {xs : List Structure}

/-- A path is cut where the name stands in it. -/
theorem cycle_eq (hpath : path.Nodup) (hmem : name ∈ path) :
    ∃ start, path.reverse.findIdx? (· = name) = some start ∧
      slice path.reverse start path.reverse.length =
        .ok (name :: (path.takeWhile (· ≠ name)).reverse) := by
  obtain ⟨late, early, rfl, hlate⟩ := List.eq_append_cons_of_mem hmem
  have hearly : name ∉ early := by
    rw [List.nodup_append] at hpath
    exact (List.nodup_cons.1 hpath.2.1).1
  have hreverse : (late ++ name :: early).reverse = early.reverse ++ name :: late.reverse := by
    simp
  have htake : (late ++ name :: early).takeWhile (· ≠ name) = late := by
    rw [List.takeWhile_append_of_pos]
    · simp
    · intro other hother
      simpa using ne_of_mem_of_not_mem hother hlate
  rw [hreverse, htake]
  refine ⟨early.reverse.length, findIdx?_append_cons (fun other hother => ?_) (by simp), ?_⟩
  · simpa using ne_of_mem_of_not_mem (List.mem_reverse.1 hother) hearly
  · exact slice_back

/-- Attributes are laid out as they are without a machine, if this is so of what they depend on. -/
theorem simulates_layAttributes {owner : String}
    {v : String → List Attribute → List Structure → Except SchemaError (List Structure)}
    {v' : String → List Attribute → List Structure → Except Halt (List Structure)}
    (hv : Visits d path v)
    (hsame : ∀ a ∈ layout, ∀ type inner, a.dependency? d = some (type, inner) →
      ∀ ys, Built d ys → v' type inner ys = lift (v type inner ys))
    (hb : Built d xs) {p : Piece} {draft : Draft} (hp : Mirrors p draft) :
    Simulates (fun laid laid' => laid'.1 = laid.1 ∧ Mirrors (p ++ laid.2) laid'.2)
      (WireSchema.layAttributes v d owner layout xs)
      (layAttributes v' d owner layout draft xs) := by
  induction layout generalizing xs p draft with
  | nil =>
    have hempty : p ++ ({} : Piece) = p := by
      show Piece.mk _ _ _ = _
      simp
    exact .ok ⟨rfl, hempty.symm ▸ hp⟩
  | cons a rest ih =>
    rw [layAttributes_cons, layAttributes]
    have hdependency : Simulates Eq (WireSchema.layDependency v d a xs)
        (layDependency v' d a xs) := by
      unfold WireSchema.layDependency layDependency
      cases hdep : a.dependency? d with
      | none => exact .ok rfl
      | some t =>
        simp only [hsame a List.mem_cons_self t.1 t.2 hdep xs hb]
        exact simulates_lift _
    refine hdependency.bind fun ys ys' hys heq => ?_
    subst heq
    have hys := (layDependency_extends hv hb hys).1.built
    refine (simulates_lift _).bind fun first first' hfirst heq => ?_
    subst heq
    have hrest := ih (fun b hb => hsame b (List.mem_cons_of_mem _ hb)) hys
      (hp.add (leads_piece hfirst))
    refine hrest.map fun laid laid' hlaid => ?_
    rw [Piece.append_assoc] at hlaid
    exact hlaid

/-- A visit comes to the same on a machine, which has room for it. -/
theorem visit_eq {room : Nat} (hw : Waiting d path name) (hlayout : d.layout? name = some layout)
    (hroom : d.types.length ≤ path.length + room) (hb : Built d xs) :
    visit d room path.reverse name layout xs =
      lift (WireSchema.visit d room path name layout xs) := by
  induction room generalizing path name layout xs with
  | zero =>
    unfold visit WireSchema.visit
    split
    · rfl
    by_cases hmem : name ∈ path
    · obtain ⟨start, hstart, hslice⟩ := cycle_eq hw.distinct hmem
      rw [hstart, if_pos hmem]
      simp only [hslice]
      rfl
    · have := hw.length_lt hlayout hmem
      omega
  | succ room ih =>
    unfold visit WireSchema.visit
    split
    · rfl
    by_cases hmem : name ∈ path
    · obtain ⟨start, hstart, hslice⟩ := cycle_eq hw.distinct hmem
      rw [hstart, if_pos hmem]
      simp only [hslice]
      rfl
    · have hnone : path.reverse.findIdx? (· = name) = none := by
        refine List.findIdx?_eq_none_iff.2 fun other hother => ?_
        simpa using ne_of_mem_of_not_mem (List.mem_reverse.1 hother) hmem
      have hsame : ∀ a ∈ layout, ∀ type inner, a.dependency? d = some (type, inner) →
          ∀ ys, Built d ys → visit d room (name :: path).reverse type inner ys =
            lift (WireSchema.visit d room (name :: path) type inner ys) := by
        intro a ha type inner hdep ys hys
        have hpush := hw.push hmem (Document.dependsOn_of_dependency? hlayout ha hdep)
        refine ih hpush (Attribute.layout?_of_dependency? hdep) ?_ hys
        rw [List.length_cons]
        omega
      have hv := visit_extends d room (name :: path)
      rw [hnone, if_neg hmem]
      simp only [← List.reverse_cons]
      refine ((simulates_layAttributes hv hsame hb .empty).bind ?_).eq_lift
      rintro ⟨below, p⟩ ⟨below', draft⟩ hlay ⟨heq, hp⟩
      obtain rfl : below = below' := heq.symm
      obtain ⟨hext, -, hpieces⟩ := layAttributes_extends hv hb hlay
      have hrange := inRange_pieces hext.built.inRange hpieces
      have hassemble : assemble below name draft = lift (WireSchema.assemble below name p) :=
        assemble_eq hext.built.inRange hrange hp
      simp only [hassemble]
      exact (simulates_lift _).bind fun s s' _ hs => hs ▸ .ok rfl

end Walk

/-- A type is added as it is without a machine. -/
theorem addType_eq {d : Document} {schema : Schema} {name : String} {descriptor : Descriptor}
    (hget : d.get? name = some descriptor) (hb : Built d schema.structures) :
    addType d schema name descriptor = lift (schema.addType d name descriptor) := by
  cases descriptor with
  | struct layout =>
    have hvisit : visit d d.types.length [] name layout schema.structures =
        lift (WireSchema.visit d d.types.length [] name layout schema.structures) :=
      visit_eq (.start name) (Document.layout?_eq_some_iff.2 hget) (by simp) hb
    rw [addType, hvisit]
    exact ((simulates_lift _).bind fun xs xs' _ heq => heq ▸ .ok rfl).eq_lift
  | enum size labels => rfl
  | byte size signedness => rfl

/-- The machine refuses the documents that are refused and gives the others their schema, and there
is no document that stops it otherwise. -/
theorem resolve_eq (d : Document) : resolve d = lift (Schema.resolve d) := by
  have hfold : ∀ (types : List (String × Descriptor)) (schema : Schema), types ⊆ d.types →
      Built d schema.structures →
      types.foldlM (fun schema (name, descriptor) => addType d schema name descriptor) schema =
        lift (types.foldlM (fun schema (name, descriptor) => schema.addType d name descriptor)
          schema) := by
    intro types
    induction types with
    | nil => exact fun _ _ _ => rfl
    | cons t rest ih =>
      obtain ⟨name, descriptor⟩ := t
      intro schema htypes hb
      obtain ⟨ht, hrest⟩ := List.cons_subset.1 htypes
      have hget := d.get?_of_mem ht
      simp only [List.foldlM_cons, addType_eq hget hb]
      refine ((simulates_lift _).bind fun new new' hnew heq => ?_).eq_lift
      subst heq
      rw [ih new hrest (addType_extends hget hb hnew).built]
      exact simulates_lift _
  exact hfold d.types .empty (List.Subset.refl _) .nil

end Machine

end WireSchema
