import WireSchema.Proofs.Resolve.Closure
import WireSchema.Proofs.Resolve.Splicing

/-!
# When sizes can be bound

The bindings of a structure are settled one after the other, and each of them changes the field that
the next one looks at. Whether they can all be settled does not depend on that order, though: every
size field has to stand before the field that it sizes and to be able to hold a number, and no field
may be the size field of two others. `Sized` says this of the declared fields of a layout.

* `exists_of_carried`: bindings with different size fields, each of which can hold a number, are
  settled.
* `sized_of_sound`: the declared fields of a structure that keeps its promises are sized.
* `Sized.exists_bound`: where the declared fields of a layout are sized, its bindings are settled.
-/

namespace WireSchema

/-- Every field that is sized by a sibling has its size field before it, a scalar or as many raw
bytes as some scalar has, and shares it with no other field. -/
structure Sized (fields : List Field) : Prop where
  carried : ∀ f ∈ fields, ∀ sizeField rule, f.kind.governor? = some (sizeField, rule) →
    ∃ c width, [c, f].Sublist fields ∧ c.name = sizeField ∧ c.kind.Carries width
  alone : ∀ f ∈ fields, ∀ g ∈ fields, ∀ sizeField rule rule',
    f.kind.governor? = some (sizeField, rule) → g.kind.governor? = some (sizeField, rule') → g = f

/-! ### Settling bindings in turn -/

section Settle

variable {fields : List Field} {b : Binding} {width : Width}

/-- A field with another name than the size field of a binding is not touched by it. -/
theorem settle_of_ne {f : Field} (h : f.name ≠ b.sizeField) : b.settle width f = f := if_neg h

/-- A binding is settled where a field that can hold a number stands before the field that is
sized. -/
theorem bindSize_of_carried {owner : String} (hn : (fields.map (·.name)).Nodup) {c : Field}
    (hc : c ∈ fields.takeWhile (·.name ≠ b.content)) (hs : c.name = b.sizeField)
    (hk : c.kind.Carries width) :
    bindSize owner fields b = .ok (fields.map (b.settle width)) := by
  have hsublist := (List.takeWhile_sublist (·.name ≠ b.content) (l := fields)).map (·.name)
  have hfind := Field.find?_eq_of_mem (hn.sublist hsublist) hc
  rw [hs] at hfind
  exact bindSize_eq_ok_iff.2 ⟨c, width, hfind, hk, rfl⟩

/-- Bindings with different size fields, each of which stands before the field that is sized and can
hold a number, are settled in any order. -/
theorem exists_of_carried {owner : String} {bs : List Binding}
    (hn : (fields.map (·.name)).Nodup) (hdistinct : (bs.map (·.sizeField)).Nodup)
    (hcarried : ∀ b ∈ bs, ∃ c ∈ fields.takeWhile (·.name ≠ b.content),
      c.name = b.sizeField ∧ ∃ width, c.kind.Carries width) :
    ∃ bound, bs.foldlM (bindSize owner) fields = .ok bound := by
  induction bs generalizing fields with
  | nil => exact ⟨fields, rfl⟩
  | cons b bs ih =>
    obtain ⟨c, hc, hs, width, hk⟩ := hcarried b List.mem_cons_self
    obtain ⟨hnew, hdistinct⟩ := List.nodup_cons.1 hdistinct
    have hnames : (fields.map (b.settle width)).map (·.name) = fields.map (·.name) := by simp
    -- the carriers of the other bindings have other names, so they stay as they are
    have hothers : ∀ b' ∈ bs, ∃ c ∈ (fields.map (b.settle width)).takeWhile (·.name ≠ b'.content),
        c.name = b'.sizeField ∧ ∃ width, c.kind.Carries width := by
      intro b' hb'
      obtain ⟨c', hc', hs', hk'⟩ := hcarried b' (List.mem_cons_of_mem _ hb')
      have hne : c'.name ≠ b.sizeField := by
        rintro heq
        exact hnew (List.mem_map.2 ⟨b', hb', hs'.symm.trans heq⟩)
      refine ⟨c', ?_, hs', hk'⟩
      rw [List.takeWhile_map]
      refine List.mem_map.2 ⟨c', ?_, settle_of_ne hne⟩
      simpa [Function.comp_def] using hc'
    obtain ⟨bound, hbound⟩ := ih (hnames ▸ hn) hdistinct hothers
    refine ⟨bound, ?_⟩
    rw [List.foldlM_cons, bindSize_of_carried hn hc hs hk]
    exact hbound

end Settle

/-! ### Declared fields and those of a structure -/

section Forall₂

variable {α β : Type} {R : α → β → Prop} {xs : List α} {ys : List β}

/-- What stands before in one list does so in the other. -/
theorem exists_pair_of_forall₂ (h : List.Forall₂ R xs ys) {x x' : α}
    (hx : [x, x'].Sublist xs) : ∃ y y', [y, y'].Sublist ys ∧ R x y ∧ R x' y' := by
  induction h with
  | nil => cases hx
  | @cons a b xs ys hab hrest ih =>
    cases hx with
    | cons _ hx =>
      obtain ⟨y, y', hy, hxy⟩ := ih hx
      exact ⟨y, y', hy.cons b, hxy⟩
    | cons_cons _ hx =>
      obtain ⟨y', hy', hxy'⟩ := exists_mem_of_forall₂ hrest (List.singleton_sublist.1 hx)
      exact ⟨b, y', (List.singleton_sublist.2 hy').cons_cons b, hab, hxy'⟩

end Forall₂

/-- The declared fields of a structure that keeps its promises are sized. -/
theorem sized_of_sound {below : List Structure} {s : Structure} {fs : List Field}
    (hs : s.Sound below) (hfs : List.Forall₂ Field.Becomes fs s.fields)
    (hcontent : ∀ f ∈ fs, f.isContent) : Sized fs := by
  have hstays : ∀ f ∈ fs, ∀ governor, f.kind.governor? = some governor → f ∈ s.fields := by
    intro f hf governor hk
    obtain ⟨g, hg, hfg⟩ := exists_mem_of_forall₂ hfs hf
    rwa [hfg.eq_of_governor hk] at hg
  constructor
  case carried =>
    intro f hf sizeField rule hk
    obtain ⟨width, hd⟩ := hs.governed (hstays f hf _ hk) hk
    obtain ⟨c, f', hpair, hc, hf'⟩ := exists_pair_of_forall₂ hfs.flip hd
    have hsame : f = f' := Field.Becomes.eq_of_governor_right hf' hk
    obtain ⟨w, hw⟩ :=
      Field.Becomes.carries_of_derived hc (hcontent c (hpair.subset List.mem_cons_self)) rfl
    exact ⟨c, w, hsame ▸ hpair, (Field.Becomes.name_eq hc).symm, hw⟩
  case alone =>
    intro f hf g hg sizeField rule rule' hk hk'
    exact hs.governed_unique (hstays f hf _ hk) (hstays g hg _ hk') hk hk'

/-! ### Pending bindings -/

/-- The pending bindings of a part of a layout are those of different fields, and none of these has
its size yet. -/
structure Piece.Pending (p : Piece) : Prop where
  contents : (p.bindings.map (·.content)).Sublist (p.fields.map (·.name))
  unserved : ∀ b ∈ p.bindings, ∀ g ∈ p.fields, ∀ width rule, g.kind ≠ .derived width b.content rule

namespace Piece.Pending

variable {p q : Piece}

theorem empty : ({} : Piece).Pending := ⟨.slnil, by simp⟩

theorem const (c : Constant) : ({ constants := [c] } : Piece).Pending := ⟨.slnil, by simp⟩

theorem settled (fields : List Field) (constants : List Constant) :
    ({ fields := fields, constants := constants } : Piece).Pending :=
  ⟨List.nil_sublist _, by simp⟩

theorem field {f : Field} (hf : f.isContent) : (Attribute.fieldPiece f).Pending where
  contents := by
    unfold Attribute.fieldPiece Field.bindings
    split <;> simp
  unserved b hb g hg width rule hk := by
    rw [List.mem_singleton.1 hg] at hk
    simp [Field.isContent, hk] at hf

/-- A derived field of one part describes a field of this part, and a pending binding of the other
part is that of a field there, so that the two are different fields. -/
theorem unserved_of_wired {b : Binding} {g : Field} (hp : Wired p.bindings p.fields)
    (hq : Wired q.bindings q.fields) (hn : ∀ f ∈ p.fields, ∀ f' ∈ q.fields, f.name ≠ f'.name)
    (hb : b ∈ p.bindings) (hg : g ∈ q.fields) {width : Width} {rule : Derivation} :
    g.kind ≠ .derived width b.content rule := by
  intro hk
  obtain ⟨f, hf, hname, -⟩ := hp.awaited b hb
  obtain ⟨f', hpair, hname', -⟩ := hq.governs g hg width b.content rule hk
  exact hn f hf f' (hpair.subset (by simp)) (hname.trans hname'.symm)

theorem append (hp : p.Pending) (hq : q.Pending) (hwp : Wired p.bindings p.fields)
    (hwq : Wired q.bindings q.fields) (hn : ((p ++ q).fields.map (·.name)).Nodup) :
    (p ++ q).Pending where
  contents := by
    simp only [fields_append, bindings_append, List.map_append]
    exact hp.contents.append hq.contents
  unserved b hb g hg width rule := by
    rw [fields_append, List.map_append, List.nodup_append] at hn
    have hne : ∀ f ∈ p.fields, ∀ f' ∈ q.fields, f.name ≠ f'.name := fun f hf f' hf' =>
      hn.2.2 _ (List.mem_map_of_mem hf) _ (List.mem_map_of_mem hf')
    rcases List.mem_append.1 hb with hb | hb <;> rcases List.mem_append.1 hg with hg | hg
    · exact hp.unserved b hb g hg width rule
    · exact unserved_of_wired hwp hwq hne hb hg
    · exact unserved_of_wired hwq hwp (fun f hf f' hf' => (hne f' hf' f hf).symm) hb hg
    · exact hq.unserved b hb g hg width rule

end Piece.Pending

theorem Attribute.pending_piece {d : Document} {below : List Structure} {owner : String}
    {a : Attribute} {p : Piece} (h : a.piece d below owner = .ok p) : p.Pending := by
  rcases hdisp : a.disposition with _ | (_ | _)
  · obtain ⟨name, kind, -, hkind, -, rfl⟩ := (piece_field_iff hdisp).1 h
    exact .field (hkind.isContent name)
  · obtain ⟨-, s, -, rfl⟩ := (piece_inline_iff hdisp).1 h
    exact .settled _ _
  · obtain ⟨c, -, rfl⟩ := (piece_const_iff hdisp).1 h
    exact .const c

theorem pending_pieces {d : Document} {below : List Structure} {owner : String}
    {layout : List Attribute} {p : Piece} (hl : Layered below) (hr : Ready d below layout)
    (h : pieces d below owner layout = .ok p) (hn : (p.fields.map (·.name)).Nodup) :
    p.Pending := by
  induction layout generalizing p with
  | nil =>
    cases h
    exact .empty
  | cons a rest ih =>
    obtain ⟨first, hfirst, h⟩ := bind_eq_ok_iff.1 h
    obtain ⟨others, hothers, h⟩ := bind_eq_ok_iff.1 h
    cases h
    have hrest : Ready d below rest := fun b hb => hr b (List.mem_cons_of_mem _ hb)
    have hdistinct : (others.fields.map (·.name)).Nodup := by
      rw [Piece.fields_append, List.map_append] at hn
      exact (List.nodup_append.1 hn).2.1
    exact (Attribute.pending_piece hfirst).append (ih hrest hothers hdistinct)
      (Attribute.sound_piece hl (hr a List.mem_cons_self) hfirst).wired
      (sound_pieces hl hrest hothers).wired hn

/-- Where the declared fields of a layout are sized, all bindings are settled. -/
theorem Sized.exists_bound {fs : List Field} (h : Sized fs) {p : Piece} {owner : String}
    (hfs : List.Forall₂ Field.Becomes fs p.fields) (hn : (p.fields.map (·.name)).Nodup)
    (hw : Wired p.bindings p.fields) (hp : p.Pending) :
    ∃ bound, p.bindings.foldlM (bindSize owner) p.fields = .ok bound := by
  -- what waits for a binding was declared so
  have hdeclared : ∀ f ∈ p.fields, ∀ governor, f.kind.governor? = some governor → f ∈ fs := by
    intro f hf governor hk
    obtain ⟨f', hf', hbecomes⟩ := exists_mem_of_forall₂ hfs.flip hf
    rwa [Field.Becomes.eq_of_governor_right hbecomes hk]
  refine exists_of_carried hn ?_ ?_
  -- two bindings with one size field are those of one field
  · have hcontents := hn.sublist hp.contents
    refine hcontents.of_map.map_on fun b hb b' hb' hs => ?_
    obtain ⟨f, hf, hname, hk⟩ := hw.awaited b hb
    obtain ⟨f', hf', hname', hk'⟩ := hw.awaited b' hb'
    rw [← hs] at hk'
    have hsame := h.alone f (hdeclared f hf _ hk) f' (hdeclared f' hf' _ hk') _ _ _ hk hk'
    refine List.inj_on_of_nodup_map hcontents hb hb' ?_
    rw [← hname, ← hname', hsame]
  · intro b hb
    obtain ⟨f, hf, hname, hk⟩ := hw.awaited b hb
    have hffs := hdeclared f hf _ hk
    obtain ⟨c, width, hpair, hs, hc⟩ := h.carried f hffs b.sizeField b.rule hk
    obtain ⟨c', f', hpair', hcc', hff'⟩ := exists_pair_of_forall₂ hfs hpair
    obtain rfl := hff'.eq_of_governor hk
    refine ⟨c', hname ▸ mem_takeWhile_of_pair_sublist hn hpair', hcc'.name_eq.trans hs, ?_⟩
    rcases hcc' with rfl | ⟨w, content, rule, -, rfl⟩
    · exact ⟨width, hc⟩
    -- if the carrier held a size already, it would be that of the same field
    · have hmem := hpair'.subset List.mem_cons_self
      obtain ⟨g, hg, hgname, hgk⟩ := hw.governs _ hmem w content rule rfl
      have hgfs := hdeclared g (hg.subset (by simp)) _ hgk
      obtain rfl := h.alone f' hffs g hgfs _ _ _ hk (hs ▸ hgk)
      exact absurd (by rw [← hname, hgname]) (hp.unserved b hb _ hmem w rule)

end WireSchema
