import WireSchema.Proofs.Codec.Reencode

/-!
# Encodings end by themselves

Where an encoding ends is seen from its own bytes. A reader that takes some bytes for a value takes
them for it wherever they stand and whatever follows, although it looks at how many bytes are left;
and if the bytes are cut short, it fails because there are not enough of them, and for no other
reason. In a group with a budget it is the budget that is found to be more than what is left, before
any item is read.

* `Reader.Delimited`: what is said of a reader. It is kept by the ways in which readers are put
  together, groups included.
* `Schema.delimited_read`: all structures of all schemas are read so.
* `Schema.decode_delimited`: what that means for whole inputs.
-/

namespace WireSchema

namespace Reader

variable {α β : Type}

/-- The reader runs out of bytes. -/
def RunsOut (r : Reader α) (c : Cursor) : Prop :=
  ∃ requested remaining c', r c = .error (.outOfRange requested remaining) c'

/-- The reader runs out of bytes where the given ones are cut short. -/
def Starves (r : Reader α) (bs : Bytes) : Prop :=
  ∀ front rest, bs = front ++ rest → rest ≠ [] → ∀ offset, RunsOut r ⟨offset, front⟩

/-- What the reader takes for a value it takes for it wherever it stands and whatever follows, and
it runs out of bytes where these are cut short. -/
def Delimited (r : Reader α) : Prop :=
  ∀ c c' a, r c = .ok a c' → ∃ bs, c.Passes bs c' ∧ Reads r bs a ∧ Starves r bs

/-! ### Cutting short -/

theorem starves_nil (r : Reader α) : Starves r [] := by
  intro front rest h hne
  exact absurd (List.append_eq_nil_iff.1 h.symm).2 hne

/-- Bytes are cut short in their first part, or behind it. -/
theorem starves_append {r : Reader α} {bs cs : Bytes} (hfirst : Starves r bs)
    (hsecond : ∀ front rest, cs = front ++ rest → rest ≠ [] →
      ∀ offset, RunsOut r ⟨offset, bs ++ front⟩) : Starves r (bs ++ cs) := by
  intro front rest h hne offset
  rcases List.append_eq_append_iff.1 h with ⟨more, rfl, hcs⟩ | ⟨more, hbs, hrest⟩
  · exact hsecond more rest hcs hne offset
  · by_cases hmore : more = []
    · subst hmore
      rw [List.append_nil] at hbs
      have := hsecond [] cs rfl (by simpa [hrest] using hne) offset
      rwa [List.append_nil, hbs] at this
    · exact hfirst front more hbs hmore offset

theorem RunsOut.bind {r : Reader α} {f : α → Reader β} {c : Cursor} (h : RunsOut r c) :
    RunsOut (r >>= f) c := by
  obtain ⟨requested, remaining, c', h⟩ := h
  exact ⟨requested, remaining, c', bind_of_error h⟩

/-! ### Putting readers together -/

theorem delimited_pure (a : α) : Delimited (pure a : Reader α) := by
  intro c c' b h
  obtain ⟨rfl, rfl⟩ := pure_eq_ok_iff.1 h
  exact ⟨[], .refl c, reads_pure a, starves_nil _⟩

theorem delimited_throw (e : Error) : Delimited (throw e : Reader α) := by
  intro c c' b h
  rw [throw_apply] at h
  cases h

theorem Delimited.bind {r : Reader α} {f : α → Reader β} (hr : Delimited r)
    (hf : ∀ a, Delimited (f a)) : Delimited (r >>= f) := by
  intro c c' b h
  obtain ⟨a, c₁, hra, hfa⟩ := bind_eq_ok_iff.1 h
  obtain ⟨bs, hbs, hreads, hstarves⟩ := hr c c₁ a hra
  obtain ⟨cs, hcs, hreads', hstarves'⟩ := hf a c₁ c' b hfa
  refine ⟨bs ++ cs, hbs.trans hcs, hreads.bind hreads', starves_append ?_ ?_⟩
  · intro front rest heq hne offset
    exact (hstarves front rest heq hne offset).bind
  · intro front rest heq hne offset
    have hfirst := hreads ⟨offset, bs ++ front⟩ ⟨offset + bs.length, front⟩ ⟨rfl, rfl⟩
    obtain ⟨requested, remaining, c₂, h₂⟩ := hstarves' front rest heq hne (offset + bs.length)
    exact ⟨requested, remaining, c₂, (bind_of_ok hfirst).trans h₂⟩

/-! ### The primitive readers -/

theorem delimited_take (n : Nat) : Delimited (take n) := by
  intro c c' bs h
  obtain ⟨rfl, hpass⟩ := take_eq_ok_iff.1 h
  refine ⟨bs, hpass, reads_take bs, ?_⟩
  rintro front rest rfl hne offset
  have hshort : (Cursor.mk offset front).remaining < (front ++ rest).length := by
    have := List.length_pos_iff.2 hne
    show front.length < (front ++ rest).length
    rw [List.length_append]
    omega
  exact ⟨_, _, _, take_eq_error hshort⟩

end Reader

/-! ### Groups -/

namespace Group

variable {α : Type}

theorem delimited_counted {read : Reader α} (h : Reader.Delimited read) (n : Nat) :
    Reader.Delimited (counted read n) := by
  induction n with
  | zero => exact Reader.delimited_pure []
  | succ n ih =>
    intro c c' items hok
    obtain ⟨hlength, hrun⟩ := counted_eq_ok_iff.1 hok
    cases hrun with
    | nil => cases hlength
    | @cons _ _ c₁ _ a items ha hne hrest =>
      have hlength : items.length = n := Nat.succ_injective hlength
      obtain ⟨bs, hbs, hreads, hstarves⟩ := h c c₁ a ha
      obtain ⟨cs, hcs, hreads', hstarves'⟩ :=
        ih c₁ c' items (counted_eq_ok_iff.2 ⟨hlength, hrest.const 0⟩)
      have hmoves := hbs.offset_ne_iff.1 hne
      -- what the first item leaves goes to the others
      have hfirst : ∀ d d₁, d.Passes bs d₁ →
          counted read (n + 1) d = (do return a :: (← counted read n)) d₁ := by
        intro d d₁ hd
        rw [counted_succ, hreads d d₁ hd]
        simp only [if_neg (hd.offset_ne_iff.2 hmoves), bind, EStateM.bind]
        cases counted read n d₁ <;> rfl
      refine ⟨bs ++ cs, hbs.trans hcs, ?_, Reader.starves_append ?_ ?_⟩
      · intro d d' hd
        obtain ⟨d₁, h₁, h₂⟩ := hd.split
        rw [hfirst d d₁ h₁, Reader.bind_of_ok (hreads' d₁ d' h₂)]
        rfl
      · intro front rest heq hne offset
        obtain ⟨requested, remaining, c₂, hout⟩ := hstarves front rest heq hne offset
        refine ⟨requested, remaining, c₂, ?_⟩
        rw [counted_succ, hout]
      · intro front rest heq hne offset
        obtain ⟨requested, remaining, c₂, hout⟩ :=
          hstarves' front rest heq hne (offset + bs.length)
        refine ⟨requested, remaining, c₂, ?_⟩
        rw [hfirst ⟨offset, bs ++ front⟩ ⟨offset + bs.length, front⟩ ⟨rfl, rfl⟩]
        exact Reader.bind_of_error hout

/-- A run of items is the same wherever its bytes stand. -/
theorem Run.moved {read : Nat → Reader α} (hread : ∀ k, Reader.Delimited (read k)) {k : Nat}
    {c c' : Cursor} {items : List α} (h : Run read k c items c') :
    ∃ bs, c.Passes bs c' ∧ ∀ d d', d.Passes bs d' → Run read k d items d' := by
  induction h with
  | @nil k c =>
    refine ⟨[], .refl c, fun d d' hd => ?_⟩
    rw [hd.eq_self]
    exact .nil
  | @cons k c c₁ c' a items ha hne _ ih =>
    obtain ⟨bs, hbs, hreads, -⟩ := hread k c c₁ a ha
    obtain ⟨cs, hcs, hmoved⟩ := ih
    refine ⟨bs ++ cs, hbs.trans hcs, fun d d' hd => ?_⟩
    obtain ⟨d₁, h₁, h₂⟩ := hd.split
    have hmoves := h₁.offset_ne_iff.2 (hbs.offset_ne_iff.1 hne)
    exact .cons (hreads d d₁ h₁) hmoves (hmoved d₁ d' h₂)

/-- A group with a budget that is cut short is refused before any of its items is read. -/
theorem delimited_budgetedWith {read : Nat → Reader α} (hread : ∀ k, Reader.Delimited (read k))
    (hforward : ∀ k, Reader.Forward (read k)) (budget : Nat) :
    Reader.Delimited (budgetedWith read budget) := by
  intro c c' items h
  obtain ⟨hbudget, hrun, hoffset⟩ := (budgetedWith_eq_ok_iff fun k => (hforward k).advances).1 h
  obtain ⟨bs, hbs, hmoved⟩ := hrun.moved hread
  have hlength : bs.length = budget := by
    have := hbs.offset
    omega
  refine ⟨bs, hbs, ?_, ?_⟩
  · intro d d' hd
    refine (budgetedWith_eq_ok_iff fun k => (hforward k).advances).2
      ⟨?_, hmoved d d' hd, hlength ▸ hd.offset⟩
    exact hlength ▸ hd.length_le
  · rintro front rest rfl hne offset
    have hshort : ¬budget ≤ (Cursor.mk offset front).remaining := by
      have := List.length_pos_iff.2 hne
      rw [List.length_append] at hlength
      show ¬budget ≤ front.length
      omega
    exact ⟨budget, _, _, Reader.bind_of_error (if_neg hshort)⟩

end Group

/-! ### Structures -/

/-- As the reader of a group relies on it that its items only move on, the two are kept together. -/
theorem Reader.compositional_delimited :
    Compositional fun {_} r => Delimited r ∧ Forward r where
  pure a := ⟨delimited_pure a, forward_pure a⟩
  throw e := ⟨delimited_throw e, forward_throw e⟩
  bind hr hf := ⟨hr.1.bind fun a => (hf a).1, forward_bind hr.2 fun a => (hf a).2⟩
  take n := ⟨delimited_take n, forward_take n⟩
  counted h n := ⟨Group.delimited_counted h.1 n, Group.forward_counted h.2 n⟩
  budgetedWith h budget :=
    ⟨Group.delimited_budgetedWith (fun k => (h k).1) (fun k => (h k).2) budget,
      Group.forward_budgetedWith (fun k => (h k).2) budget⟩

namespace Schema

/-- All structures are read in such a way that their encodings end by themselves. -/
theorem delimited_read (schema : Schema) (limits : Limits) (name : String) :
    Reader.Delimited (schema.read limits name) :=
  (Reader.compositional_delimited.interpret limits schema.structures name).1

/-- Bytes that are read to their end as a structure are read as the same one between any others;
they are no whole input with more bytes after them, nor are their beginnings. -/
theorem decode_delimited (schema : Schema) (limits : Limits) (name : String) {bs : Bytes}
    {r : Record} (h : schema.read limits name (.start bs) = .ok r ⟨bs.length, []⟩) :
    (∀ front rest : Bytes,
      schema.read limits name ⟨front.length, (front ++ bs ++ rest).drop front.length⟩ =
        .ok r ⟨front.length + bs.length, rest⟩) ∧
    (∀ rest : Bytes, rest ≠ [] →
      schema.decode limits name (bs ++ rest) = .error (.trailingData rest.length)) ∧
    ∀ front : Bytes, front <+: bs → front ≠ bs → ∃ requested remaining,
      schema.decode limits name front = .error (.outOfRange requested remaining) := by
  obtain ⟨cs, hpass, hreads, hstarves⟩ := schema.delimited_read limits name _ _ r h
  obtain rfl : bs = cs := hpass.rest.trans (List.append_nil cs)
  refine ⟨?_, ?_, ?_⟩
  · intro front rest
    refine hreads _ _ ⟨?_, rfl⟩
    rw [List.append_assoc, List.drop_left]
  · intro rest hne
    have hread : schema.read limits name (.start (bs ++ rest)) = .ok r ⟨0 + bs.length, rest⟩ :=
      hreads _ _ ⟨rfl, rfl⟩
    exact Reader.decode_of_rest hread hne
  · rintro front ⟨rest, rfl⟩ hne
    have hrest : rest ≠ [] := by
      rintro rfl
      exact hne (List.append_nil front).symm
    obtain ⟨requested, remaining, c, hout⟩ := hstarves front rest rfl hrest 0
    exact ⟨requested, remaining, Reader.decode_of_error hout⟩

end Schema

/-- A packet is read between other bytes, but it is no packet with a byte after it or without its
last byte. -/
theorem decode_delimited_sparsePacket :
    packetSchema.read {} "Packet" ⟨1, packetInput.drop 1⟩ = .ok fullPacket ⟨18, [5]⟩ ∧
      packetSchema.decode {} "Packet" (sparsePacketBytes ++ [5]) = .error (.trailingData 1) ∧
      ∃ requested remaining, packetSchema.decode {} "Packet" sparsePacketBytes.dropLast =
        .error (.outOfRange requested remaining) := by
  have hread : packetSchema.read {} "Packet" (.start sparsePacketBytes) =
      .ok fullPacket ⟨sparsePacketBytes.length, []⟩ := rfl
  obtain ⟨hbetween, hafter, hshort⟩ :=
    packetSchema.decode_delimited {} "Packet" hread
  exact ⟨hbetween [255] [5], hafter [5] (by decide),
    hshort _ (List.dropLast_prefix _) (by decide)⟩

end WireSchema
