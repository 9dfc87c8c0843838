import WireSchema.Proofs.Outcome

/-!
# What readers do

A reader is described from two sides: by the bytes that a success has taken, and by the bytes that
make it succeed.

* `Cursor.Passes`: one position lies some bytes after another.
* `Reader.Advances`: a reader only moves on where it succeeds; `Reader.Forward`: also where it fails.
* `Reader.Reads`: a reader takes some bytes for a value, wherever they stand and whatever follows.
-/

namespace WireSchema

/-- The second position lies the given bytes after the first. -/
structure Cursor.Passes (c : Cursor) (bs : Bytes) (c' : Cursor) : Prop where
  rest : c.rest = bs ++ c'.rest
  offset : c'.offset = c.offset + bs.length

namespace Cursor.Passes

variable {c c₁ c' : Cursor} {bs cs : Bytes}

theorem refl (c : Cursor) : c.Passes [] c := ⟨rfl, rfl⟩

theorem trans (h₁ : c.Passes bs c₁) (h₂ : c₁.Passes cs c') : c.Passes (bs ++ cs) c' where
  rest := by rw [h₁.rest, h₂.rest, List.append_assoc]
  offset := by rw [h₂.offset, h₁.offset, List.length_append, Nat.add_assoc]

theorem split (h : c.Passes (bs ++ cs) c') : ∃ c₁, c.Passes bs c₁ ∧ c₁.Passes cs c' := by
  refine ⟨⟨c.offset + bs.length, cs ++ c'.rest⟩, ⟨?_, rfl⟩, ⟨rfl, ?_⟩⟩
  · rw [h.rest, List.append_assoc]
  · rw [h.offset, List.length_append, Nat.add_assoc]

/-- The position after some bytes is determined by them. -/
theorem eq_mk (h : c.Passes bs c') : c' = ⟨c.offset + bs.length, c.rest.drop bs.length⟩ := by
  obtain ⟨offset, rest⟩ := c'
  have hrest : c.rest = bs ++ rest := h.rest
  have hoffset : offset = c.offset + bs.length := h.offset
  rw [hrest, List.drop_left, hoffset]

theorem eq_self (h : c.Passes [] c') : c' = c := h.eq_mk

theorem length (h : c.Passes bs c') : c.rest.length = bs.length + c'.rest.length := by
  rw [h.rest, List.length_append]

theorem length_le (h : c.Passes bs c') : bs.length ≤ c.rest.length := by
  have := h.length
  omega

/-- What is left gets no longer. -/
theorem rest_length_le (h : c.Passes bs c') : c'.rest.length ≤ c.rest.length := by
  have := h.length
  omega

theorem take_eq (h : c.Passes bs c') : c.rest.take bs.length = bs := by
  rw [h.rest, List.take_left]

/-- A position has moved if bytes were passed. -/
theorem offset_ne_iff (h : c.Passes bs c') : c'.offset ≠ c.offset ↔ bs ≠ [] := by
  have := h.offset
  rw [← List.length_pos_iff]
  omega

end Cursor.Passes

namespace Reader

variable {α β : Type}

/-- The place where a reader leaves the cursor. -/
def final (r : Reader α) (c : Cursor) : Cursor :=
  match r c with
  | .ok _ c' => c'
  | .error _ c' => c'

theorem final_of_ok {r : Reader α} {c c' : Cursor} {a : α} (h : r c = .ok a c') :
    final r c = c' := by
  simp [final, h]

theorem final_of_error {r : Reader α} {c c' : Cursor} {e : Error} (h : r c = .error e c') :
    final r c = c' := by
  simp [final, h]

/-- The reader only moves on, whether it succeeds or fails. -/
def Forward (r : Reader α) : Prop := ∀ c : Cursor, ∃ bs, c.Passes bs (final r c)

/-- The reader only moves on where it succeeds. -/
def Advances (r : Reader α) : Prop := ∀ c a c', r c = .ok a c' → ∃ bs, c.Passes bs c'

/-- The reader takes the given bytes for the given value. -/
def Reads (r : Reader α) (bs : Bytes) (a : α) : Prop :=
  ∀ c c' : Cursor, c.Passes bs c' → r c = .ok a c'

/-! ### Moving on -/

section Forward

variable {r : Reader α} {f : α → Reader β}

theorem Forward.passes (h : Forward r) {c c' : Cursor} {a : α} (hr : r c = .ok a c') :
    ∃ bs, c.Passes bs c' := by
  have := h c
  rwa [final_of_ok hr] at this

theorem Forward.advances (h : Forward r) : Advances r := fun _ _ _ hr => h.passes hr

theorem forward_pure (a : α) : Forward (pure a : Reader α) := by
  intro c
  exact ⟨[], .refl c⟩

theorem forward_throw (e : Error) : Forward (throw e : Reader α) := by
  intro c
  exact ⟨[], .refl c⟩

theorem forward_bind (hr : Forward r) (hf : ∀ a, Forward (f a)) : Forward (r >>= f) := by
  intro c
  obtain ⟨bs, hbs⟩ := hr c
  cases h : r c with
  | error e c₁ =>
    have heq : (r >>= f) c = .error e c₁ := by simp [bind, EStateM.bind, h]
    rw [final_of_error heq, ← final_of_error h]
    exact ⟨bs, hbs⟩
  | ok a c₁ =>
    have heq : (r >>= f) c = f a c₁ := by simp [bind, EStateM.bind, h]
    rw [final_of_ok h] at hbs
    obtain ⟨cs, hcs⟩ := hf a c₁
    refine ⟨bs ++ cs, ?_⟩
    rw [final, heq]
    exact hbs.trans hcs

theorem forward_map (hr : Forward r) (g : α → β) : Forward (do return g (← r)) :=
  forward_bind hr fun a => forward_pure (g a)

/-- What is done with the value does not move. -/
theorem forward_of_map {g : α → β} (h : Forward (do return g (← r))) : Forward r := by
  intro c
  have hfinal : final (do return g (← r)) c = final r c := by
    unfold final
    simp only [Bind.bind, EStateM.bind]
    cases r c <;> rfl
  rw [← hfinal]
  exact h c

end Forward

/-! ### The primitive readers -/

theorem atLeast_eq_ok_iff {n : Nat} {c c' : Cursor} {u : Unit} :
    atLeast n c = .ok u c' ↔ n ≤ c.remaining ∧ c' = c := by
  unfold atLeast
  split
  · next h => simp [h, eq_comm]
  · next h => simp [h]

theorem take_eq_ok_iff {n : Nat} {c c' : Cursor} {bs : Bytes} :
    take n c = .ok bs c' ↔ bs.length = n ∧ c.Passes bs c' := by
  constructor
  · intro h
    have hn : n ≤ c.remaining := by
      by_contra hn
      rw [take_eq_error (Nat.lt_of_not_le hn)] at h
      cases h
    rw [take_eq_ok hn] at h
    cases h
    have hlen : (c.rest.take n).length = n := List.length_take_of_le hn
    exact ⟨hlen, (List.take_append_drop n c.rest).symm, by rw [hlen]⟩
  · rintro ⟨rfl, h⟩
    rw [take_eq_ok h.length_le, h.take_eq, h.eq_mk]

theorem scalar_eq_ok_iff {w : Width} {c c' : Cursor} {n : UInt64} :
    scalar w c = .ok n c' ↔ ∃ bs, w.encode n.toNat = .ok bs ∧ c.Passes bs c' := by
  unfold scalar
  rw [bind_eq_ok_iff]
  constructor
  · rintro ⟨bs, c₁, ht, hp⟩
    obtain ⟨hlen, hpass⟩ := take_eq_ok_iff.1 ht
    obtain ⟨rfl, rfl⟩ := pure_eq_ok_iff.1 hp
    have hlt : leValue bs < 256 ^ w.bytes := hlen ▸ leValue_lt bs
    have hle : leValue bs ≤ w.maxValue := (w.le_maxValue_iff _).2 hlt
    have hn : (UInt64.ofNat (leValue bs)).toNat = leValue bs :=
      UInt64.toNat_ofNat_of_lt' (Nat.lt_of_le_of_lt hle w.maxValue_lt)
    refine ⟨bs, Width.encode_eq_ok_iff.2 ?_, hpass⟩
    rw [hn]
    exact ⟨hle, by rw [← hlen, leBytes_leValue]⟩
  · rintro ⟨bs, he, hpass⟩
    obtain ⟨hn, hbs⟩ := Width.encode_eq_ok_iff.1 he
    refine ⟨bs, c', take_eq_ok_iff.2 ⟨Width.length_of_encode he, hpass⟩, ?_⟩
    refine pure_eq_ok_iff.2 ⟨?_, rfl⟩
    rw [hbs, leValue_leBytes ((w.le_maxValue_iff _).1 hn), UInt64.ofNat_toNat]

theorem exhausted_eq_ok_iff {c c' : Cursor} {u : Unit} :
    exhausted c = .ok u c' ↔ c.rest = [] ∧ c = c' := by
  unfold exhausted
  cases h : c.rest with
  | nil => simp
  | cons b bs => simp

/-- A whole input is read where nothing is left. -/
theorem decode_eq_ok_iff {r : Reader α} {input : Bytes} {a : α} :
    r.decode input = .ok a ↔ ∃ offset, r (.start input) = .ok a ⟨offset, []⟩ := by
  have hresult : r.decode input = .ok a ↔
      ∃ c, (do let a ← r; exhausted; return a) (Cursor.start input) = .ok a c := by
    unfold decode result
    cases (do let a ← r; exhausted; return a) (Cursor.start input) with
    | ok b c => simp
    | error e c => simp
  rw [hresult]
  constructor
  · rintro ⟨c, h⟩
    obtain ⟨b, c₁, hr, h⟩ := bind_eq_ok_iff.1 h
    obtain ⟨_, c₂, he, hp⟩ := bind_eq_ok_iff.1 h
    obtain ⟨hrest, rfl⟩ := exhausted_eq_ok_iff.1 he
    obtain ⟨rfl, rfl⟩ := pure_eq_ok_iff.1 hp
    exact ⟨c₁.offset, by rw [hr, ← hrest]⟩
  · rintro ⟨offset, hr⟩
    refine ⟨⟨offset, []⟩, bind_eq_ok_iff.2 ⟨a, _, hr, ?_⟩⟩
    exact bind_eq_ok_iff.2 ⟨(), _, exhausted_eq_ok_iff.2 ⟨rfl, rfl⟩, rfl⟩

/-- A failure is one of the whole input. -/
theorem decode_of_error {r : Reader α} {input : Bytes} {e : Error} {c : Cursor}
    (h : r (.start input) = .error e c) : r.decode input = .error e := by
  unfold decode result
  rw [bind_of_error h]

/-- What is left over of a whole input is refused. -/
theorem decode_of_rest {r : Reader α} {input : Bytes} {a : α} {c : Cursor}
    (h : r (.start input) = .ok a c) (hrest : c.rest ≠ []) :
    r.decode input = .error (.trailingData c.rest.length) := by
  obtain ⟨offset, rest⟩ := c
  obtain ⟨b, more, rfl⟩ := List.exists_cons_of_ne_nil hrest
  unfold decode result
  rw [bind_of_ok h]
  rfl

/-- A whole input is refused where the reader fails, or leaves something over. -/
theorem decode_eq_error_iff {r : Reader α} {input : Bytes} {e : Error} :
    r.decode input = .error e ↔
      (∃ c, r (.start input) = .error e c) ∨
        ∃ a c, r (.start input) = .ok a c ∧ c.rest ≠ [] ∧ e = .trailingData c.rest.length := by
  cases h : r (.start input) with
  | error e' c =>
    rw [decode_of_error h]
    simp
  | ok a c =>
    by_cases hrest : c.rest = []
    · obtain ⟨offset, rest⟩ := c
      subst hrest
      rw [decode_eq_ok_iff.2 ⟨offset, h⟩]
      simp
    · rw [decode_of_rest h hrest]
      simp [hrest, eq_comm]

/-- What is done with the value is done after a whole input is read, too. -/
theorem decode_map {r : Reader α} (g : α → β) (input : Bytes) :
    (do return g (← r) : Reader β).decode input = (r.decode input).map g := by
  have hbind : (do let b ← (do return g (← r) : Reader β); exhausted; return b) =
      (do return g (← (do let a ← r; exhausted; return a)) : Reader β) := by
    simp only [bind_assoc, pure_bind]
  unfold decode
  rw [hbind]
  unfold result
  simp only [bind, EStateM.bind]
  cases r (.start input) with
  | error e c => rfl
  | ok a c =>
    dsimp only
    cases exhausted c <;> rfl

theorem final_atLeast (n : Nat) (c : Cursor) : final (atLeast n) c = c := by
  rw [final, atLeast]
  split_ifs <;> rfl

theorem forward_atLeast (n : Nat) : Forward (atLeast n) := by
  intro c
  rw [final_atLeast]
  exact ⟨[], .refl c⟩

theorem forward_take (n : Nat) : Forward (take n) := by
  intro c
  by_cases hn : n ≤ c.remaining
  · obtain ⟨-, h⟩ := take_eq_ok_iff.1 (take_eq_ok hn)
    rw [final_of_ok (take_eq_ok hn)]
    exact ⟨_, h⟩
  · rw [final_of_error (take_eq_error (Nat.lt_of_not_le hn))]
    exact ⟨[], .refl c⟩

theorem final_exhausted (c : Cursor) : final exhausted c = c := by
  rw [final, exhausted]
  cases c.rest <;> rfl

theorem forward_exhausted : Forward exhausted := by
  intro c
  rw [final_exhausted]
  exact ⟨[], .refl c⟩

theorem forward_scalar (w : Width) : Forward (scalar w) :=
  forward_map (forward_take w.bytes) _

/-! ### Taking bytes -/

section Reads

variable {r : Reader α} {f : α → Reader β} {bs cs : Bytes} {a : α} {b : β}

theorem reads_pure (a : α) : Reads (pure a : Reader α) [] a := by
  intro c c' h
  rw [h.eq_self]
  rfl

theorem Reads.bind (hr : Reads r bs a) (hf : Reads (f a) cs b) : Reads (r >>= f) (bs ++ cs) b := by
  intro c c' h
  obtain ⟨c₁, h₁, h₂⟩ := h.split
  exact bind_eq_ok_iff.2 ⟨a, c₁, hr c c₁ h₁, hf c₁ c' h₂⟩

/-- A step that takes no bytes leaves them to the next one. -/
theorem Reads.bind_nil (hr : Reads r [] a) (hf : Reads (f a) bs b) : Reads (r >>= f) bs b :=
  hr.bind hf

theorem Reads.map (hr : Reads r bs a) (g : α → β) : Reads (do return g (← r)) bs (g a) := by
  have := Reads.bind (f := fun a => pure (g a)) hr (reads_pure (g a))
  rwa [List.append_nil] at this

/-- What takes all bytes of an input reads it as a whole. -/
theorem Reads.decode (hr : Reads r bs a) : r.decode bs = .ok a := by
  refine decode_eq_ok_iff.2 ⟨bs.length, hr _ _ ⟨?_, ?_⟩⟩
  · exact (List.append_nil bs).symm
  · exact (Nat.zero_add bs.length).symm

theorem reads_take (bs : Bytes) : Reads (take bs.length) bs bs := by
  intro c c' h
  exact take_eq_ok_iff.2 ⟨rfl, h⟩

theorem reads_scalar {w : Width} {n : UInt64} (hn : w.encode n.toNat = .ok bs) :
    Reads (scalar w) bs n := by
  intro c c' h
  exact scalar_eq_ok_iff.2 ⟨bs, hn, h⟩

end Reads

end Reader

end WireSchema
