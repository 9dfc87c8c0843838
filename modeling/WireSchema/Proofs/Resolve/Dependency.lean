import WireSchema.Proofs.Resolve.Refusal
import Mathlib.Data.List.Chain
import Mathlib.Data.List.Perm.Subperm
import Mathlib.Logic.Function.Iterate
import Mathlib.Logic.Relation

/-!
# Dependencies between structures

A structure depends on those that its attributes put inline and on those that its fields have as
their types. This is said of the document alone (`Document.DependsOn`), and so is what a cycle of
dependencies is (`Document.IsCycle`).

The walk through a document keeps the structures that wait for the one that it lays out on a path.
`Waiting` is the invariant of that path: each structure on it depends on the one that is laid out
for it, and none waits twice. From it follows

* `iterate_visitBody`: a visit comes to an end within as many nested calls as there are types, so
  that the bound on the length of the path never tells;
* `cycle_of_resolve`: a cycle that is reported is one of the document.

In the other direction, `acyclic_of_resolve` says that no document with a cycle is resolved, because
a structure lies in a deeper layer than those that depend on it.
-/

namespace WireSchema

/-- The structure `owner` has an attribute that puts the structure `type` inline, or a field of that
type. The built-in type of raw bytes is no structure, whatever is declared under its name. -/
def Document.DependsOn (d : Document) (owner type : String) : Prop :=
  ∃ layout, d.layout? owner = some layout ∧ ∃ a ∈ layout,
    a.type = type ∧ (d.layout? type).isSome ∧
      (a.disposition = some .inline ∨ a.disposition = none ∧ a.type ≠ rawBytes)

/-- A path of dependencies that leads from a structure through others, none of them twice, back to
it. -/
def Document.IsCycle (d : Document) (path : List String) : Prop :=
  ∃ name rest, path = name :: rest ++ [name] ∧ (name :: rest).Nodup ∧ path.IsChain d.DependsOn

/-- No structure depends on itself, directly or through others. -/
def Document.Acyclic (d : Document) : Prop :=
  ∀ name, ¬Relation.TransGen d.DependsOn name name

/-- The ends of a path are related by way of what lies between them. -/
theorem transGen_of_isChain {α : Type} {R : α → α → Prop} {start last : α} {rest : List α}
    (h : (start :: rest ++ [last]).IsChain R) : Relation.TransGen R start last := by
  induction rest generalizing start with
  | nil => exact .single (List.isChain_pair.1 h)
  | cons next rest ih =>
    obtain ⟨hstep, hrest⟩ := List.isChain_cons_cons.1 h
    exact .head hstep (ih hrest)

namespace Document

variable {d : Document}

theorem exists_layout_of_dependsOn {owner type : String} (h : d.DependsOn owner type) :
    ∃ layout, d.layout? owner = some layout := by
  obtain ⟨layout, hlayout, -⟩ := h
  exact ⟨layout, hlayout⟩

/-- What has to be laid out before an attribute is a dependency of its owner. -/
theorem dependsOn_of_dependency? {owner : String} {layout inner : List Attribute} {a : Attribute}
    {type : String} (hlayout : d.layout? owner = some layout) (ha : a ∈ layout)
    (h : a.dependency? d = some (type, inner)) : d.DependsOn owner type := by
  have hsome : (d.layout? type).isSome := by
    rw [Attribute.layout?_of_dependency? h]
    rfl
  have htype : a.type = type := (Attribute.fst_of_dependency? h).symm
  refine ⟨layout, hlayout, a, ha, ?_⟩
  unfold Attribute.dependency? at h
  split at h
  · next hd => exact ⟨htype, hsome, .inl hd⟩
  · cases h
  · next hd =>
    split at h
    · next hnamed =>
      rw [Bool.and_eq_true, bne_iff_ne] at hnamed
      exact ⟨htype, hsome, .inr ⟨hd, hnamed.2⟩⟩
    · cases h

/-- A structure on a path of dependencies that leads back to it depends on itself. -/
theorem IsCycle.transGen {path : List String} (h : d.IsCycle path) :
    ∃ name, Relation.TransGen d.DependsOn name name := by
  obtain ⟨name, rest, rfl, -, hchain⟩ := h
  exact ⟨name, transGen_of_isChain hchain⟩

/-- A declared structure is one of the types of the document. -/
theorem mem_names_of_layout? {name : String} {layout : List Attribute}
    (h : d.layout? name = some layout) : name ∈ d.types.map Prod.fst :=
  List.mem_map_of_mem (mem_of_get? (layout?_eq_some_iff.1 h))

end Document

/-! ### The path of a walk -/

/-- The structures on the path wait for the structure `name`, the latest first: each depends on the
one that is laid out for it, and none waits twice. -/
structure Waiting (d : Document) (path : List String) (name : String) : Prop where
  steps : (name :: path).IsChain fun type owner => d.DependsOn owner type
  distinct : path.Nodup

namespace Waiting

variable {d : Document} {path : List String} {name type : String}

theorem start (name : String) : Waiting d [] name := ⟨.singleton name, .nil⟩

theorem push (h : Waiting d path name) (hnew : name ∉ path) (hdep : d.DependsOn name type) :
    Waiting d (name :: path) type where
  steps := h.steps.cons_cons hdep
  distinct := List.nodup_cons.2 ⟨hnew, h.distinct⟩

/-- What waits is declared. -/
theorem declared (h : Waiting d path name) : path ⊆ d.types.map Prod.fst := by
  obtain ⟨hsteps, -⟩ := h
  induction path generalizing name with
  | nil => exact List.nil_subset _
  | cons owner rest ih =>
    obtain ⟨hdep, hrest⟩ := List.isChain_cons_cons.1 hsteps
    obtain ⟨layout, hlayout⟩ := Document.exists_layout_of_dependsOn hdep
    exact List.cons_subset.2 ⟨Document.mem_names_of_layout? hlayout, ih hrest⟩

theorem length_le (h : Waiting d path name) : path.length ≤ d.types.length := by
  have hlength := (List.subperm_of_subset h.distinct h.declared).length_le
  rwa [List.length_map] at hlength

/-- As long as a declared structure does not wait yet, there is room for it on the path. -/
theorem length_lt (h : Waiting d path name) {layout : List Attribute}
    (hlayout : d.layout? name = some layout) (hnew : name ∉ path) :
    path.length < d.types.length := by
  have hsubset : name :: path ⊆ d.types.map Prod.fst :=
    List.cons_subset.2 ⟨Document.mem_names_of_layout? hlayout, h.declared⟩
  have hdistinct : (name :: path).Nodup := List.nodup_cons.2 ⟨hnew, h.distinct⟩
  have hlength := (List.subperm_of_subset hdistinct hsubset).length_le
  rw [List.length_cons, List.length_map] at hlength
  exact hlength

/-- Where a structure waits for itself, the path holds a cycle. -/
theorem cycle (h : Waiting d path name) (hmem : name ∈ path) :
    d.IsCycle (cyclePath path name) := by
  -- the structures that wait, from the latest to the one that is asked for again
  obtain ⟨late, early, rfl, hnot⟩ := List.eq_append_cons_of_mem hmem
  have hlate : (late ++ name :: early).takeWhile (· ≠ name) = late := by
    rw [List.takeWhile_append_of_pos]
    · simp
    · intro other hother
      simpa using ne_of_mem_of_not_mem hother hnot
  have hpath : cyclePath (late ++ name :: early) name = (name :: late ++ [name]).reverse := by
    rw [cyclePath, hlate]
    simp
  have hsteps : (name :: late ++ [name]).IsChain fun type owner => d.DependsOn owner type := by
    have hall := h.steps
    rw [List.append_cons, ← List.cons_append] at hall
    exact hall.left_of_append
  refine ⟨name, late.reverse, by rw [hpath]; simp, ?_, ?_⟩
  · have hdistinct := (List.nodup_append.1 h.distinct).1
    exact List.nodup_cons.2 ⟨by simpa using hnot, List.nodup_reverse.2 hdistinct⟩
  · rw [hpath]
    exact List.isChain_reverse.2 hsteps

end Waiting

/-! ### How deep a walk goes -/

/-- One call of a visit, with `recur` in place of the calls that it makes in turn and no account of
the room that there is for them. -/
def visitBody (d : Document)
    (recur : List String → String → List Attribute → List Structure →
      Except SchemaError (List Structure))
    (path : List String) (name : String) (layout : List Attribute) (structures : List Structure) :
    Except SchemaError (List Structure) :=
  if (findStructure? structures name).isSome then .ok structures
  else if name ∈ path then .error (.cycle (cyclePath path name))
  else do
    let (structures, p) ← layAttributes (recur (name :: path)) d name layout structures
    return (← assemble structures name p) :: structures

section Depth

variable {d : Document}

/-- Visits that agree on what is declared lay out attributes alike. -/
theorem layAttributes_congr {owner : String}
    {v w : String → List Attribute → List Structure → Except SchemaError (List Structure)}
    {layout : List Attribute}
    (h : ∀ a ∈ layout, ∀ type inner, a.dependency? d = some (type, inner) →
      v type inner = w type inner) (structures : List Structure) :
    layAttributes v d owner layout structures = layAttributes w d owner layout structures := by
  induction layout generalizing structures with
  | nil => rfl
  | cons a rest ih =>
    have hfirst : layDependency v d a = layDependency w d a := by
      funext xs
      unfold layDependency
      split
      · next type inner hdep => rw [h a List.mem_cons_self type inner hdep]
      · rfl
    have hrest := fun xs => ih (fun b hb => h b (List.mem_cons_of_mem _ hb)) xs
    simp only [layAttributes_cons, hfirst, hrest]

/-- Calls that are nested as deep as there are types, and one more, come to the end of a visit,
whatever the calls beyond them would do. -/
theorem iterate_visitBody {depth room : Nat} {path : List String} {name : String}
    {layout : List Attribute} (hw : Waiting d path name) (hlayout : d.layout? name = some layout)
    (hdepth : d.types.length < path.length + depth) (hroom : d.types.length ≤ path.length + room)
    (beyond : List String → String → List Attribute → List Structure →
      Except SchemaError (List Structure)) :
    (visitBody d)^[depth] beyond path name layout = visit d room path name layout := by
  induction depth generalizing room path name layout with
  | zero =>
    have := hw.length_le
    omega
  | succ depth ih =>
    rw [Function.iterate_succ_apply']
    generalize (visitBody d)^[depth] beyond = recur at ih ⊢
    funext structures
    unfold visitBody visit
    split
    · rfl
    split
    · rfl
    · next hnew =>
      cases room with
      | zero =>
        have := hw.length_lt hlayout hnew
        omega
      | succ room =>
        have hsame : ∀ a ∈ layout, ∀ type inner, a.dependency? d = some (type, inner) →
            recur (name :: path) type inner = visit d room (name :: path) type inner := by
          intro a ha type inner hdep
          refine ih (hw.push hnew (Document.dependsOn_of_dependency? hlayout ha hdep))
            (Attribute.layout?_of_dependency? hdep) ?_ ?_
          all_goals
            rw [List.length_cons]
            omega
        simp only [layAttributes_congr hsame]

end Depth

/-! ### Reported cycles -/

/-- The computation does not report a cycle. -/
def CycleFree {α : Type} (x : Except SchemaError α) : Prop := ∀ path, x ≠ .error (.cycle path)

/-- A fault that lies in a single declaration is no cycle. -/
theorem FailsPlain.cycleFree {α : Type} {x : Except SchemaError α} (hx : FailsPlain x) :
    CycleFree x :=
  fun path h => hx (.cycle path) h

theorem Attribute.cycleFree_piece (d : Document) (structures : List Structure) (owner : String)
    (a : Attribute) : CycleFree (a.piece d structures owner) := by
  intro path h
  rcases fault_of_piece h with hplain | ⟨_, _, _, he, -⟩
  · exact hplain
  · cases he

section Cycle

variable {d : Document} {path : List String}

/-- A cycle that is reported while attributes are laid out is reported by a visit. -/
theorem dependency_of_layAttributes
    {visit : String → List Attribute → List Structure → Except SchemaError (List Structure)}
    {owner : String} {layout : List Attribute} {structures : List Structure}
    (h : layAttributes visit d owner layout structures = .error (.cycle path)) :
    ∃ a ∈ layout, ∃ type inner xs,
      a.dependency? d = some (type, inner) ∧ visit type inner xs = .error (.cycle path) := by
  induction layout generalizing structures with
  | nil => cases h
  | cons a rest ih =>
    rw [layAttributes_cons] at h
    rcases bind_eq_error_iff.1 h with h | ⟨xs, -, h⟩
    · unfold layDependency at h
      split at h
      · next type inner hdep => exact ⟨a, List.mem_cons_self, type, inner, structures, hdep, h⟩
      · cases h
    rcases bind_eq_error_iff.1 h with h | ⟨first, -, h⟩
    · exact absurd h (Attribute.cycleFree_piece d xs owner a path)
    rcases bind_eq_error_iff.1 h with h | ⟨others, -, h⟩
    · obtain ⟨b, hb, hvisit⟩ := ih h
      exact ⟨b, List.mem_cons_of_mem _ hb, hvisit⟩
    · cases h

/-- A cycle that a visit reports is one of the document. -/
theorem cycle_of_visit {room : Nat} {waiting : List String} {name : String}
    {layout : List Attribute} {structures : List Structure} (hw : Waiting d waiting name)
    (hlayout : d.layout? name = some layout) (hroom : d.types.length ≤ waiting.length + room)
    (h : visit d room waiting name layout structures = .error (.cycle path)) : d.IsCycle path := by
  induction room generalizing waiting name layout structures with
  | zero =>
    unfold visit at h
    split at h
    · cases h
    split at h
    · next hmem =>
      cases h
      exact hw.cycle hmem
    · next hnew =>
      have := hw.length_lt hlayout hnew
      omega
  | succ room ih =>
    unfold visit at h
    split at h
    · cases h
    split at h
    · next hmem =>
      cases h
      exact hw.cycle hmem
    · next hnew =>
      rcases bind_eq_error_iff.1 h with h | ⟨⟨below, p⟩, -, h⟩
      · obtain ⟨a, ha, type, inner, xs, hdep, h⟩ := dependency_of_layAttributes h
        refine ih (hw.push hnew (Document.dependsOn_of_dependency? hlayout ha hdep))
          (Attribute.layout?_of_dependency? hdep) ?_ h
        rw [List.length_cons]
        omega
      · exact absurd h (((plain_assemble below name p).bind fun s => plain_ok _).cycleFree path)

/-- A cycle for which a document is refused is one of the document. -/
theorem cycle_of_resolve (h : Schema.resolve d = .error (.cycle path)) : d.IsCycle path := by
  obtain ⟨⟨name, descriptor⟩, hmem, schema, -, h⟩ :=
    exists_of_foldlM_eq_error (P := fun _ => True) (fun _ _ _ _ _ _ => trivial) h trivial
  have hget := d.get?_of_mem hmem
  cases descriptor with
  | struct layout =>
    rcases bind_eq_error_iff.1 h with h | ⟨structures, -, h⟩
    · exact cycle_of_visit (.start name) (Document.layout?_eq_some_iff.2 hget)
        (Nat.le_of_eq (Nat.zero_add _).symm) h
    · cases h
  | enum size labels =>
    refine absurd h (((plain_scalarWidth name size).bind fun width => ?_).cycleFree path)
    exact (plain_forM (fun label => plain_checkValue _ _ _ _) labels).bind fun _ => plain_ok _
  | byte size signedness =>
    exact absurd h (((plain_byteRun name size signedness).bind fun _ => plain_ok _).cycleFree path)

end Cycle

/-! ### No cycles in a resolved document -/

section Acyclic

variable {d : Document} {schema : Schema}

/-- What an attribute that contributes depends on is laid out before it. -/
theorem Attribute.dependency?_of_piece {below : List Structure} {owner : String} {a : Attribute}
    {p : Piece} {inner : List Attribute} (h : a.piece d below owner = .ok p)
    (hinner : d.layout? a.type = some inner)
    (hkind : a.disposition = some .inline ∨ a.disposition = none ∧ a.type ≠ rawBytes) :
    a.dependency? d = some (a.type, inner) := by
  rcases hkind with hdisp | ⟨hdisp, htype⟩
  · simp [dependency?, hdisp, hinner]
  · simp only [piece, hdisp] at h
    obtain ⟨name, hname, -⟩ := bind_eq_ok_iff.1 h
    exact dependency?_of_struct hdisp (requiredName_eq_ok_iff.1 hname) htype hinner

/-- In a resolved schema, a structure lies in a deeper layer than those that depend on it. -/
theorem layer_lt_of_dependsOn (h : Schema.resolve d = .ok schema) {owner type : String}
    (hdep : d.DependsOn owner type) :
    layer schema.structures type < layer schema.structures owner := by
  obtain ⟨layout, hlayout, a, ha, rfl, hsome, hkind⟩ := hdep
  obtain ⟨inner, hinner⟩ := Option.isSome_iff_exists.1 hsome
  obtain ⟨above, below, s, p, hstructures, rfl, -, hready, hp, -⟩ :=
    exists_laid_of_resolve h hlayout
  obtain ⟨q, hq⟩ := exists_piece_of_pieces hp ha
  have hfound := hready a ha _ (Attribute.dependency?_of_piece hq hinner hkind)
  have hl := layered_of_resolve h
  rw [hstructures] at hl ⊢
  exact hl.layer_lt hfound

/-- A document that is resolved has no cycle. -/
theorem acyclic_of_resolve (h : Schema.resolve d = .ok schema) : d.Acyclic := by
  have hdeeper : ∀ owner type, Relation.TransGen d.DependsOn owner type →
      layer schema.structures type < layer schema.structures owner := by
    intro owner type hpath
    induction hpath with
    | single hdep => exact layer_lt_of_dependsOn h hdep
    | tail _ hdep ih => exact (layer_lt_of_dependsOn h hdep).trans ih
  intro name hcycle
  exact Nat.lt_irrefl _ (hdeeper name name hcycle)

end Acyclic

end WireSchema
