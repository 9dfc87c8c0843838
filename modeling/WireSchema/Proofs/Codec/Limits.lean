import WireSchema.Proofs.Codec.Reach
import WireSchema.Proofs.Codec.Reencode

/-!
# Limits on what is read

Limits filter what is read and change nothing else. What is read without limits is read with them to
the same value and the same place if all of it keeps to them, and is refused for exceeding a limit
if not. Input that is refused without limits is refused with them, for the same reason or because a
limit is exceeded before.

* `Schema.KeepsTo`: all blobs and groups of a value keep to the limits, at any depth.
* `Reader.Filters`: a reader with limits against the same reader without. It is kept by the ways in
  which readers are put together, groups included.
* `Schema.filters_read`: all structures are read so.
* `Schema.limits_filter`: what that means for reading a structure, and for raising the limits.
-/

namespace WireSchema

/-! ### Keeping to limits -/

/-- The content of a field keeps to the limits. Only what another field governs is held to them: the
bytes of a blob and the items of a group. -/
def Limits.Allow (limits : Limits) : FieldKind → Value → Prop
  | .variableBlob _, .bytes data => data.length ≤ limits.maxBlobLength
  | .repeated _ (.counted _), .list items => items.length ≤ limits.maxItems
  | .repeated _ (.budgeted _), .list items => items.length ≤ limits.maxItems
  | _, _ => True

/-- The first limits are nowhere above the second. -/
structure Limits.Below (limits raised : Limits) : Prop where
  maxItems_le : limits.maxItems ≤ raised.maxItems
  maxBlobLength_le : limits.maxBlobLength ≤ raised.maxBlobLength

theorem Limits.Allow.raised {limits raised : Limits} (h : limits.Below raised) {kind : FieldKind}
    {v : Value} (hv : limits.Allow kind v) : raised.Allow kind v := by
  cases kind with
  | variableBlob sizeField =>
    cases v with
    | bytes data => exact Nat.le_trans hv h.maxBlobLength_le
    | _ => trivial
  | repeated element cardinality =>
    cases v with
    | list items =>
      cases cardinality with
      | fixed count => trivial
      | counted sizeField => exact Nat.le_trans hv h.maxItems_le
      | budgeted sizeField => exact Nat.le_trans hv h.maxItems_le
    | _ => cases cardinality <;> trivial
  | _ => trivial

namespace Schema

/-- All content of a value of the structure `name` keeps to the limits, at any depth. -/
def KeepsTo (schema : Schema) (limits : Limits) (name : String) (v : Record) : Prop :=
  ∀ type r, schema.Reaches (name, v) (type, r) → ∀ s, schema.structure? type = some s →
    ∀ f ∈ s.fields, ∀ content, r.get? f.name = some content → limits.Allow f.kind content

/-- The content of a field keeps to the limits, and so do the values that it holds. -/
def Keeps (schema : Schema) (limits : Limits) (kind : FieldKind) (content : Value) : Prop :=
  limits.Allow kind content ∧ ∀ p, kind.LeadsTo (some content) p → schema.KeepsTo limits p.1 p.2

variable {schema : Schema} {limits : Limits} {name : String} {v : Record}

theorem KeepsTo.raised {raised : Limits} (hv : schema.KeepsTo limits name v)
    (h : limits.Below raised) : schema.KeepsTo raised name v :=
  fun type r hr s hs f hf content hget => (hv type r hr s hs f hf content hget).raised h

/-- There is nothing in an empty value that could exceed a limit. -/
theorem keepsTo_nil (type : String) : schema.KeepsTo limits type [] := by
  intro type' r hr s _ f _ content hget
  have hnil : r = [] := hr.eq_nil
  rw [hnil] at hget
  cases hget

/-- A value keeps to the limits if the content of its fields does. -/
theorem keepsTo_iff {s : Structure} (hs : schema.structure? name = some s) :
    schema.KeepsTo limits name v ↔
      ∀ f ∈ s.fields, ∀ content, v.get? f.name = some content →
        schema.Keeps limits f.kind content := by
  constructor
  · intro hv f hf content hget
    refine ⟨hv name v .refl s hs f hf content hget, fun p hp type r hr => ?_⟩
    refine hv type r (.head ⟨s, hs, f, hf, ?_⟩ hr)
    rwa [hget]
  · intro hfields type r hr t ht f hf content hget
    rcases hr.cases_head with heq | ⟨p, ⟨s', hs', g, hg, hp⟩, hr⟩
    · cases heq
      cases hs.symm.trans ht
      exact (hfields f hf content hget).1
    · cases hs.symm.trans hs'
      cases hgot : v.get? g.name with
      | some inner =>
        rw [hgot] at hp
        exact (hfields g hg inner hgot).2 p hp type r hr t ht f hf content hget
      | none =>
        -- what stands in place of a missing structure is empty
        rw [hgot] at hp
        obtain ⟨type', r'⟩ := p
        obtain rfl : r' = [] := hp.eq_nil
        exact keepsTo_nil type' type r hr t ht f hf content hget

end Schema

/-! ### Readers with limits -/

namespace Reader

variable {α β : Type} {limits : Limits}

/-- The reader is refused because something exceeds one of the limits. -/
def Exceeds (limits : Limits) (r : Reader α) (c : Cursor) : Prop :=
  ∃ found limit c', r c = .error (.lengthExceeded found limit) c' ∧ limit < found ∧
    (limit = limits.maxItems ∨ limit = limits.maxBlobLength)

/-- The second reader reads as the first one does, but refuses for the sake of the limits what does
not have the property. -/
structure Filters (limits : Limits) (P : α → Prop) (full held : Reader α) : Prop where
  /-- What has the property is read, to the same place. -/
  keeps : ∀ c a c', full c = .ok a c' → P a → held c = .ok a c'
  /-- What does not have it is refused. -/
  refuses : ∀ c a c', full c = .ok a c' → ¬P a → held.Exceeds limits c
  /-- What is refused anyway is refused for the same reason, or before. -/
  fails : ∀ c e c', full c = .error e c' → held c = .error e c' ∨ held.Exceeds limits c

theorem Exceeds.bind {r : Reader α} {f : α → Reader β} {c : Cursor} (h : r.Exceeds limits c) :
    (r >>= f).Exceeds limits c := by
  obtain ⟨found, limit, c', hr, hlimit⟩ := h
  exact ⟨found, limit, c', bind_of_error hr, hlimit⟩

/-- What comes after a step exceeds a limit where the step leaves off. -/
theorem Exceeds.after {r : Reader α} {f : α → Reader β} {c c' : Cursor} {a : α}
    (hr : r c = .ok a c') (h : (f a).Exceeds limits c') : (r >>= f).Exceeds limits c := by
  obtain ⟨found, limit, c'', hf, hlimit⟩ := h
  exact ⟨found, limit, c'', (bind_of_ok hr).trans hf, hlimit⟩

/-- A reader that limits do not concern. -/
theorem Filters.refl {P : α → Prop} {r : Reader α} (h : ∀ c a c', r c = .ok a c' → P a) :
    Filters limits P r r where
  keeps _ _ _ hr _ := hr
  refuses c a c' hr hP := absurd (h c a c' hr) hP
  fails _ _ _ hr := .inl hr

theorem Filters.throw {P : α → Prop} (e : Error) :
    Filters limits P (MonadExcept.throw e : Reader α) (MonadExcept.throw e) :=
  .refl fun c _ _ h => nomatch (throw_apply e c).symm.trans h

/-- A property may be said in another way of what is read. -/
theorem Filters.congr {P Q : α → Prop} {full held : Reader α} (h : Filters limits P full held)
    (hPQ : ∀ c a c', full c = .ok a c' → (Q a ↔ P a)) : Filters limits Q full held where
  keeps c a c' hr hQ := h.keeps c a c' hr ((hPQ c a c' hr).1 hQ)
  refuses c a c' hr hQ := h.refuses c a c' hr fun hP => hQ ((hPQ c a c' hr).2 hP)
  fails := h.fails

/-- One step after another: the whole has the property if both steps have theirs. -/
theorem Filters.bind {P : α → Prop} {Q : α → β → Prop} {full held : Reader α}
    {f g : α → Reader β} (hr : Filters limits P full held)
    (hf : ∀ a, P a → Filters limits (Q a) (f a) (g a)) {R : β → Prop}
    (hR : ∀ a b c c', f a c = .ok b c' → (R b ↔ P a ∧ Q a b)) :
    Filters limits R (full >>= f) (held >>= g) where
  keeps c b c' h hb := by
    obtain ⟨a, c₁, hfull, h⟩ := bind_eq_ok_iff.1 h
    obtain ⟨hP, hQ⟩ := (hR a b c₁ c' h).1 hb
    exact bind_eq_ok_iff.2 ⟨a, c₁, hr.keeps c a c₁ hfull hP, (hf a hP).keeps c₁ b c' h hQ⟩
  refuses c b c' h hb := by
    obtain ⟨a, c₁, hfull, h⟩ := bind_eq_ok_iff.1 h
    by_cases hP : P a
    · have hQ : ¬Q a b := fun hQ => hb ((hR a b c₁ c' h).2 ⟨hP, hQ⟩)
      exact .after (hr.keeps c a c₁ hfull hP) ((hf a hP).refuses c₁ b c' h hQ)
    · exact (hr.refuses c a c₁ hfull hP).bind
  fails c e c' h := by
    cases hfull : full c with
    | error e₁ c₁ =>
      rw [bind_of_error hfull] at h
      cases h
      exact (hr.fails c e c' hfull).imp bind_of_error Exceeds.bind
    | ok a c₁ =>
      rw [bind_of_ok hfull] at h
      by_cases hP : P a
      · have hheld := hr.keeps c a c₁ hfull hP
        exact ((hf a hP).fails c₁ e c' h).imp (bind_of_ok hheld).trans (.after hheld)
      · exact .inr (hr.refuses c a c₁ hfull hP).bind

theorem Filters.map {P : α → Prop} {Q : β → Prop} {full held : Reader α} {g : α → β}
    (hr : Filters limits P full held) (hQ : ∀ a, Q (g a) ↔ P a) :
    Filters limits Q (do return g (← full)) (do return g (← held)) := by
  refine hr.bind (Q := fun _ _ => True) (fun a _ => .refl fun _ _ _ _ => trivial) ?_
  intro a b c c' h
  obtain ⟨rfl, -⟩ := pure_eq_ok_iff.1 h
  rw [hQ, and_true]

/-- A step that limits do not concern comes first. -/
theorem Filters.after {Q : β → Prop} (r : Reader α) {f g : α → Reader β}
    (hf : ∀ a, Filters limits Q (f a) (g a)) : Filters limits Q (r >>= f) (r >>= g) :=
  Filters.bind (P := fun _ => True) (.refl fun _ _ _ _ => trivial) (fun a _ => hf a)
    fun _ _ _ _ _ => by rw [true_and]

end Reader

/-! ### Groups -/

namespace Group

variable {α : Type}

/-- Reads an item together with the number of bytes that it takes, which may not be zero. -/
def taking (empty : Malformation) (read : Reader α) : Reader (α × Nat) := fun c =>
  match read c with
  | .error e c' => .error e c'
  | .ok a c' =>
    if c'.offset = c.offset then .error (.malformed empty) c'
    else .ok (a, c'.offset - c.offset) c'

theorem counted_succ_eq (read : Reader α) (n : Nat) :
    counted read (n + 1) = do
      let p ← taking .emptyCountedItem read
      return p.1 :: (← counted read n) := by
  funext c
  rw [counted_succ]
  simp only [bind, EStateM.bind, taking]
  cases read c with
  | error e c' => rfl
  | ok a c' =>
    dsimp only
    by_cases hsame : c'.offset = c.offset
    · rw [if_pos hsame, if_pos hsame]
    · rw [if_neg hsame, if_neg hsame]
      dsimp only
      cases counted read n c' <;> rfl

theorem budgetedFrom_succ_eq {read : Nat → Reader α} {budget calls used count : Nat}
    {done : List α} (hused : used ≠ budget) (hover : ¬budget < used) :
    budgetedFrom read budget (calls + 1) used count done =
      taking .emptyBudgetedItem (read count) >>= fun p =>
        budgetedFrom read budget calls (used + p.2) (count + 1) (p.1 :: done) := by
  funext c
  rw [budgetedFrom_succ hused hover]
  simp only [bind, EStateM.bind, taking]
  cases read count c with
  | error e c' => rfl
  | ok a c' =>
    dsimp only
    by_cases hsame : c'.offset = c.offset
    · rw [if_pos hsame, if_pos hsame]
    · rw [if_neg hsame, if_neg hsame]

variable {limits : Limits} {P : α → Prop} {full held : Reader α}

theorem filters_taking (empty : Malformation) (h : Reader.Filters limits P full held) :
    Reader.Filters limits (fun p => P p.1) (taking empty full) (taking empty held) := by
  constructor
  case keeps =>
    intro c p c' hr hP
    unfold taking at hr ⊢
    cases hfull : full c with
    | error e c₁ => simp [hfull] at hr
    | ok a c₁ =>
      simp only [hfull] at hr
      split at hr
      · cases hr
      · next hne =>
        cases hr
        simp only [h.keeps c a c' hfull hP, if_neg hne]
  case refuses =>
    intro c p c' hr hP
    unfold taking at hr
    cases hfull : full c with
    | error e c₁ => simp [hfull] at hr
    | ok a c₁ =>
      simp only [hfull] at hr
      split at hr <;> cases hr
      obtain ⟨found, limit, c₂, hheld, hlimit⟩ := h.refuses c a c' hfull hP
      exact ⟨found, limit, c₂, by simp only [taking, hheld], hlimit⟩
  case fails =>
    intro c e c' hr
    have hexceeds : held.Exceeds limits c → (taking empty held).Exceeds limits c := by
      rintro ⟨found, limit, c₂, hheld, hlimit⟩
      exact ⟨found, limit, c₂, by simp only [taking, hheld], hlimit⟩
    unfold taking at hr
    cases hfull : full c with
    | error e₁ c₁ =>
      simp only [hfull] at hr
      cases hr
      refine (h.fails c e c' hfull).imp (fun hheld => ?_) hexceeds
      simp only [taking, hheld]
    | ok a c₁ =>
      simp only [hfull] at hr
      split at hr
      · next hsame =>
        cases hr
        by_cases hP : P a
        · exact .inl (by simp only [taking, h.keeps c a c' hfull hP, if_pos hsame])
        · exact .inr (hexceeds (h.refuses c a c' hfull hP))
      · cases hr

/-- The items of a group are held to the limits one by one. -/
theorem filters_counted (h : Reader.Filters limits P full held) (n : Nat) :
    Reader.Filters limits (fun items => ∀ a ∈ items, P a) (counted full n) (counted held n) := by
  induction n with
  | zero =>
    refine .refl fun c items c' hr => ?_
    cases hr
    exact List.forall_mem_nil P
  | succ n ih =>
    rw [counted_succ_eq, counted_succ_eq]
    refine (filters_taking _ h).bind
      (fun p hp => ih.map (Q := fun items => ∀ a ∈ items, P a) fun items => ?_) ?_
    · rw [List.forall_mem_cons, and_iff_right hp]
    · intro p items c c' hr
      obtain ⟨others, -, rfl⟩ := Reader.map_eq_ok_iff.1 hr
      rw [List.forall_mem_cons, and_self_left]

theorem filters_limited {found most limit : Nat} (hmost : found ≤ most)
    (hlimit : limit = limits.maxItems ∨ limit = limits.maxBlobLength) :
    Reader.Filters limits (fun _ => found ≤ limit) (Decode.limited found most)
      (Decode.limited found limit) := by
  constructor
  case keeps =>
    intro c u c' hr hle
    obtain ⟨-, rfl⟩ := Decode.limited_eq_ok_iff.1 hr
    exact Decode.limited_eq_ok_iff.2 ⟨hle, rfl⟩
  case refuses =>
    intro c u c' hr hover
    refine ⟨found, limit, c, ?_, Nat.lt_of_not_le hover, hlimit⟩
    rw [Decode.limited, if_neg hover, Reader.throw_apply]
  case fails =>
    intro c e c' hr
    rw [Decode.limited, if_pos hmost] at hr
    cases hr

/-- Reads an item, unless it is one more than the limits allow. -/
def limitedItem (limits : Limits) (read : Reader α) (before : Nat) : Reader α := do
  Decode.limited (before + 1) limits.maxItems
  read

theorem filters_limitedItem (h : Reader.Filters limits P full held) {before : Nat}
    (hbefore : before < 2 ^ 64 - 1) :
    Reader.Filters limits (fun a => before + 1 ≤ limits.maxItems ∧ P a)
      (limitedItem {} full before) (limitedItem limits held before) :=
  (filters_limited (Nat.succ_le_of_lt hbefore) (.inl rfl)).bind (fun _ _ => h)
    fun _ _ _ _ _ => Iff.rfl

/-- What groups of a governed size are held to: the number of items, and what holds of each. -/
def Held (limits : Limits) (P : α → Prop) (items : List α) : Prop :=
  items.length ≤ limits.maxItems ∧ ∀ a ∈ items, P a

/-- The items of a group are counted while they are read. There are no more than `calls` to come, so
all of them are no more than a machine word counts. -/
theorem filters_budgetedFrom (h : Reader.Filters limits P full held)
    (hforward : Reader.Forward full) {budget : Nat} (hbudget : budget < 2 ^ 64)
    {calls used count : Nat} {done : List α} (hcount : done.length = count)
    (hcalls : count + calls = budget) (hdone : Held limits P done.reverse) :
    Reader.Filters limits (Held limits P)
      (budgetedFrom (limitedItem {} full) budget calls used count done)
      (budgetedFrom (limitedItem limits held) budget calls used count done) := by
  have hread : ∀ k, Reader.Forward (limitedItem {} full k) := fun k =>
    Reader.forward_bind (Reader.compositional_forward.limited _ _) fun _ => hforward
  induction calls generalizing used count done with
  | zero =>
    unfold budgetedFrom
    refine .refl fun c items c' hr => ?_
    split at hr
    · cases hr
      exact hdone
    · split at hr <;> cases hr
  | succ calls ih =>
    by_cases hused : used = budget
    · have heq : ∀ read : Nat → Reader α,
          budgetedFrom read budget (calls + 1) used count done = pure done.reverse := fun read =>
        funext fun c => budgetedFrom_end hused
      rw [heq, heq]
      refine .refl fun c items c' hr => ?_
      obtain ⟨rfl, -⟩ := Reader.pure_eq_ok_iff.1 hr
      exact hdone
    by_cases hover : budget < used
    · have heq : ∀ read : Nat → Reader α, budgetedFrom read budget (calls + 1) used count done =
          throw (.malformed (.overshoot used budget)) := fun read =>
        funext fun c => budgetedFrom_over hover
      rw [heq, heq]
      exact .throw _
    rw [budgetedFrom_succ_eq hused hover, budgetedFrom_succ_eq hused hover]
    refine (filters_taking _ (filters_limitedItem h (by omega))).bind
      (Q := fun _ => Held limits P) (fun p hp => ?_) ?_
    · refine ih (by rw [List.length_cons, hcount]) (by omega) ⟨?_, fun a ha => ?_⟩
      · rw [List.length_reverse, List.length_cons, hcount]
        exact hp.1
      · rw [List.reverse_cons, List.mem_append, List.mem_singleton] at ha
        rcases ha with ha | rfl
        · exact hdone.2 a ha
        · exact hp.2
    · intro p items c c' hr
      -- the item that was just read is among those of the group
      obtain ⟨more, rfl, -, -⟩ := run_of_budgetedFrom (fun k => (hread k).advances) hr
      rw [iff_and_self]
      rintro ⟨hlength, hitems⟩
      refine ⟨?_, hitems p.1 (by simp)⟩
      rw [List.length_append, List.length_reverse, List.length_cons, hcount] at hlength
      omega

theorem filters_budgetedWith (h : Reader.Filters limits P full held)
    (hforward : Reader.Forward full) {budget : Nat} (hbudget : budget < 2 ^ 64) :
    Reader.Filters limits (Held limits P) (budgetedWith (limitedItem {} full) budget)
      (budgetedWith (limitedItem limits held) budget) :=
  .after _ fun _ => filters_budgetedFrom h hforward hbudget rfl (Nat.zero_add budget)
    ⟨Nat.zero_le _, List.forall_mem_nil P⟩

end Group

/-! ### Structures -/

namespace Decode

variable {schema : Schema} {limits : Limits} {owner : Structure} {frame : Frame}

/-- What is read as an item keeps to the limits, if it is a structure. -/
def ItemKeeps (schema : Schema) (limits : Limits) (item : Element) (v : Value) : Prop :=
  ∀ type r, item = .struct type → v = .record r → schema.KeepsTo limits type r

theorem keeps_repeated {element : Element} {cardinality : Cardinality} {items : List Value} :
    schema.Keeps limits (.repeated element cardinality) (.list items) ↔
      limits.Allow (.repeated element cardinality) (.list items) ∧
        ∀ v ∈ items, ItemKeeps schema limits element v := by
  refine and_congr_right fun _ => ?_
  constructor
  · rintro h v hv type r rfl rfl
    exact h (type, r) (.item hv)
  · intro h p hp
    obtain ⟨type, r, helement, hr, rfl⟩ := FieldKind.leadsTo_repeated.1 hp
    exact h _ hr type r helement rfl

/-- A size that was read before is a machine word. -/
theorem filters_governing {β : Type} {P : β → Prop} {name : String} {f g : Nat → Reader β}
    (h : ∀ n < 2 ^ 64, Reader.Filters limits P (f n) (g n)) :
    Reader.Filters limits P (governing owner frame name >>= f)
      (governing owner frame name >>= g) := by
  cases hlookup : frame.lookup name with
  | none =>
    have heq : governing owner frame name = throw (.malformed (.notDecoded owner.name name)) := by
      rw [governing, hlookup]
    rw [heq]
    exact .throw _
  | some n =>
    have heq : governing owner frame name = pure n.toNat := by rw [governing, hlookup]
    rw [heq, pure_bind, pure_bind]
    exact h n.toNat n.toNat_lt

/-- The structures that a kind of field refers to are filtered by the limits. -/
def Filtered (schema : Schema) (limits : Limits) (kind : FieldKind) : Prop :=
  ∀ type ∈ kind.references,
    Reader.Filters limits (schema.KeepsTo limits type) (schema.read {} type)
      (schema.read limits type)

theorem Filtered.element {item : Element} {cardinality : Cardinality}
    (hn : Filtered schema limits (.repeated item cardinality)) :
    Reader.Filters limits (ItemKeeps schema limits item) (element (schema.read {}) item)
      (element (schema.read limits) item) := by
  cases item with
  | struct type =>
    refine (hn type (List.mem_singleton_self type)).map fun r => ?_
    constructor
    · intro h
      exact h type r rfl rfl
    · rintro h _ _ ⟨⟩ ⟨⟩
      exact h
  | scalar width => exact .refl fun _ _ _ _ _ _ heq => nomatch heq
  | blob size => exact .refl fun _ _ _ _ _ _ heq => nomatch heq

theorem Filtered.group {item : Element} {cardinality : Cardinality}
    (hn : Filtered schema limits (.repeated item cardinality)) :
    Reader.Filters limits
      (fun items => schema.Keeps limits (.repeated item cardinality) (.list items))
      (group (schema.read {}) {} owner frame item cardinality)
      (group (schema.read limits) limits owner frame item cardinality) := by
  have hitem := hn.element
  simp only [keeps_repeated]
  cases cardinality with
  | fixed count =>
    exact (Group.filters_counted hitem count).congr fun _ _ _ _ => and_iff_right trivial
  | counted sizeField =>
    refine filters_governing fun n hn => ?_
    refine (Group.filters_limited (Nat.le_sub_one_of_lt hn) (.inl rfl)).bind
      (fun _ _ => Group.filters_counted hitem n) fun _ items c c' hr => ?_
    -- there are as many items as were announced
    rw [← (Group.counted_eq_ok_iff.1 hr).1]
    rfl
  | budgeted sizeField =>
    refine filters_governing fun n hn => ?_
    exact Group.filters_budgetedWith hitem
      (Reader.compositional_forward.element (schema.forward_read {}) item) hn

theorem Filtered.content {kind : FieldKind} (hn : Filtered schema limits kind) :
    Reader.Filters limits (schema.Keeps limits kind)
      (content (schema.read {}) {} owner frame kind)
      (content (schema.read limits) limits owner frame kind) := by
  -- what neither nests nor is governed keeps to all limits
  have hfree : ∀ v, (∀ p, ¬kind.LeadsTo (some v) p) → limits.Allow kind v →
      schema.Keeps limits kind v := fun v hp hv => ⟨hv, fun p h => absurd h (hp p)⟩
  cases kind with
  | scalar width => exact .refl fun _ v _ _ => hfree v nofun trivial
  | fixedBlob size => exact .refl fun _ v _ _ => hfree v nofun trivial
  | derived width _ _ => exact .refl fun _ v _ _ => hfree v nofun trivial
  | variableBlob sizeField =>
    refine filters_governing fun n hn => ?_
    refine (Group.filters_limited (Nat.le_sub_one_of_lt hn) (.inr rfl)).bind (Q := fun _ _ => True)
      (fun _ _ => .refl fun _ _ _ _ => trivial) fun _ v c c' hr => ?_
    obtain ⟨data, hdata, rfl⟩ := Reader.map_eq_ok_iff.1 hr
    -- there are as many bytes as were announced
    rw [and_true, ← (Reader.take_eq_ok_iff.1 hdata).1]
    exact ⟨And.left, fun h => hfree _ nofun h⟩
  | embedded type =>
    refine (hn type (List.mem_singleton_self type)).map fun r => ?_
    constructor
    · rintro ⟨-, h⟩
      exact h (type, r) .embedded
    · intro h
      refine ⟨trivial, fun p hp => ?_⟩
      cases hp
      exact h
  | repeated item cardinality => exact hn.group.map fun items => Iff.rfl

/-- The content of some fields of a value keeps to the limits. -/
def FieldsKeep (schema : Schema) (limits : Limits) (fs : List Field) (r : Record) : Prop :=
  ∀ f ∈ fs, ∀ content, r.get? f.name = some content → schema.Keeps limits f.kind content

theorem fieldsKeep_cons {f : Field} {rest : List Field} {r : Record} :
    FieldsKeep schema limits (f :: rest) r ↔
      (∀ content, r.get? f.name = some content → schema.Keeps limits f.kind content) ∧
        FieldsKeep schema limits rest r :=
  List.forall_mem_cons

/-- What is held under another name makes no difference. -/
theorem fieldsKeep_cons_record {fs : List Field} {name : String} {v : Value} {r : Record}
    (hname : name ∉ fs.map (·.name)) :
    FieldsKeep schema limits fs ((name, v) :: r) ↔ FieldsKeep schema limits fs r := by
  refine forall₂_congr fun f hf => ?_
  have hne : name ≠ f.name := by
    rintro rfl
    exact hname (List.mem_map_of_mem hf)
  rw [Record.get?, if_neg hne]

theorem filters_fields {fs : List Field} (hn : ∀ f ∈ fs, Filtered schema limits f.kind)
    (hdistinct : (fs.map (·.name)).Nodup) (frame : Frame) :
    Reader.Filters limits (FieldsKeep schema limits fs)
      (fields (schema.read {}) {} owner fs frame)
      (fields (schema.read limits) limits owner fs frame) := by
  induction fs generalizing frame with
  | nil => exact .refl fun _ _ _ _ => List.forall_mem_nil _
  | cons f rest ih =>
    rw [List.map_cons, List.nodup_cons] at hdistinct
    have hrest := ih (fun g hg => hn g (List.mem_cons_of_mem _ hg)) hdistinct.2
    rcases f.isContent_or_derived with hf | ⟨width, content, rule, hk⟩
    · rw [fields_content hf, fields_content hf]
      refine (hn f List.mem_cons_self).content.bind
        (fun v _ => (hrest frame).map fun r => fieldsKeep_cons_record hdistinct.1) ?_
      intro v out c c' hr
      obtain ⟨r, -, rfl⟩ := Reader.map_eq_ok_iff.1 hr
      have hget : Record.get? ((f.name, v) :: r) f.name = some v := by rw [Record.get?, if_pos rfl]
      rw [fieldsKeep_cons, hget]
      simp only [Option.some.injEq, forall_eq']
    · rw [fields_derived hk, fields_derived hk]
      refine .after _ fun n => (hrest ((f.name, n) :: frame)).congr fun _ r _ _ => ?_
      rw [fieldsKeep_cons, and_iff_right]
      -- a derived field holds nothing
      intro v _
      rw [hk]
      refine ⟨trivial, fun p hp => ?_⟩
      cases hp

end Decode

namespace Schema

variable {schema : Schema}

/-- All structures are filtered by the limits. -/
theorem filters_read (h : Layered schema.structures) (limits : Limits) (name : String) :
    Reader.Filters limits (schema.KeepsTo limits name) (schema.read {} name)
      (schema.read limits name) := by
  induction name using h.induction with
  | unknown name hs =>
    have heq : ∀ limits, schema.read limits name =
        throw (.malformed (.unknownStructure name)) := fun limits =>
      interpret_of_find_eq_none _ _ hs
    rw [heq, heq]
    exact .throw _
  | step name s hs ih =>
    rw [read_of_find h hs, read_of_find h hs]
    exact (Decode.filters_fields ih (sound_of_find h hs).distinct []).congr
      fun _ _ _ _ => keepsTo_iff hs

/-- What is read without limits is read with them to the same value and the same place if all of its
blobs and groups keep to them, and is refused for exceeding one if not; what is refused without
limits is refused with them, for the same reason or for exceeding one. So what is read is read the
same with any limits that are nowhere below. -/
theorem limits_filter {d : Document} (h : Schema.resolve d = .ok schema) (limits : Limits)
    (name : String) (c : Cursor) :
    (∀ v c', schema.read {} name c = .ok v c' →
      (schema.KeepsTo limits name v → schema.read limits name c = .ok v c') ∧
        (¬schema.KeepsTo limits name v → (schema.read limits name).Exceeds limits c)) ∧
    (∀ e c', schema.read {} name c = .error e c' →
      schema.read limits name c = .error e c' ∨ (schema.read limits name).Exceeds limits c) ∧
    ∀ raised : Limits, limits.Below raised → ∀ v c',
      schema.read limits name c = .ok v c' → schema.read raised name c = .ok v c' := by
  have hl := layered_of_resolve h
  have hf := filters_read hl limits name
  refine ⟨fun v c' hr => ⟨hf.keeps c v c' hr, hf.refuses c v c' hr⟩, hf.fails c, ?_⟩
  intro raised hbelow v c' hr
  -- what limits accept is what is read without any, and keeps to them
  have hexceeds : ¬(schema.read limits name).Exceeds limits c := by
    rintro ⟨found, limit, c₁, he, -⟩
    cases hr.symm.trans he
  cases hfull : schema.read {} name c with
  | error e c₁ =>
    rcases hf.fails c e c₁ hfull with he | he
    · cases hr.symm.trans he
    · exact absurd he hexceeds
  | ok w c₁ =>
    have hkeeps : schema.KeepsTo limits name w :=
      not_not.1 fun hnot => hexceeds (hf.refuses c w c₁ hfull hnot)
    cases hr.symm.trans (hf.keeps c w c₁ hfull hkeeps)
    exact (filters_read hl raised name).keeps c v c' hfull (hkeeps.raised hbelow)

end Schema

/-! ### An example -/

/-- The parts of a packet are two. -/
theorem not_keepsTo_fullPacket : ¬packetSchema.KeepsTo ⟨1, 0⟩ "Packet" fullPacket := by
  intro h
  have hparts := h "Packet" fullPacket .refl packetStructure rfl
    ⟨"parts", .repeated (.struct "Chunk") (.budgeted "total")⟩ (by decide) _ rfl
  exact absurd (show 2 ≤ 1 from hparts) (by decide)

/-- A packet is refused if only one part is allowed, although its budget is not; and what is read
with limits that it just keeps to is read with one more item allowed. -/
theorem limits_filter_packetInput :
    (packetSchema.read ⟨1, 0⟩ "Packet").Exceeds ⟨1, 0⟩ ⟨1, packetInput.drop 1⟩ ∧
      packetSchema.read ⟨3, 0⟩ "Packet" ⟨1, packetInput.drop 1⟩ = .ok fullPacket ⟨18, [5]⟩ := by
  have hfull : packetSchema.read {} "Packet" ⟨1, packetInput.drop 1⟩ =
      .ok fullPacket ⟨18, [5]⟩ := rfl
  obtain ⟨hread, -, -⟩ :=
    Schema.limits_filter resolve_packetDocument ⟨1, 0⟩ "Packet" ⟨1, packetInput.drop 1⟩
  obtain ⟨-, -, hraised⟩ :=
    Schema.limits_filter resolve_packetDocument packetLimits "Packet" ⟨1, packetInput.drop 1⟩
  exact ⟨(hread _ _ hfull).2 not_keepsTo_fullPacket,
    hraised ⟨3, 0⟩ ⟨by decide, by decide⟩ _ _ read_packetInput⟩

end WireSchema
