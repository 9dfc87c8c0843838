import WireSchema.Proofs.Json.Parsing

/-!
# JSON text without white space

A value that is written without white space is read back, too: a number or a name never stands next
to another one, so it ends where the next token begins.

* `Json.scan_compact`: the text of a value has the tokens of the value.
* `Json.Printable`: values whose tokens are read from their spelling, nested no deeper than a given
  number. Arrays and objects of printable values are printable.
* `Json.Printable.parse?_compact`: a value that is printed is read back.
-/

namespace WireSchema.Json

/-! ### Tokens -/

section Tokens

open Token

/-- What follows an item of an array does not go on with the item. -/
theorem ends_itemTokens (items : List Json) (rest : List Char) :
    Ends ((itemTokens items).flatMap chars ++ rest) := by
  cases items with
  | nil =>
    unfold itemTokens
    exact ends_cons (by decide)
  | cons v items =>
    unfold itemTokens
    exact ends_cons (by decide)

theorem ends_memberTokens (members : List (String × Json)) (rest : List Char) :
    Ends ((memberTokens members).flatMap chars ++ rest) := by
  cases members with
  | nil =>
    unfold memberTokens
    exact ends_cons (by decide)
  | cons m members =>
    unfold memberTokens
    exact ends_cons (by decide)

/-- A key is read together with the colon after it. -/
theorem scanFrom_name (name : String) (ts : List Token) (rest : List Char) :
    scanFrom .gap ts (chars (.text name) ++ (chars .colon ++ rest)) =
      scanFrom .gap (.colon :: .text name :: ts) rest :=
  (scanFrom_quote name).trans (scanFrom_of_next rfl)

mutual

/-- A value is spelled by its tokens, one after the other. -/
theorem scanFrom_tokens (v : Json) (hv : ∀ t ∈ v.tokens, t.Legible) (ts : List Token)
    {rest : List Char} (hrest : Ends rest) :
    scanFrom .gap ts (v.tokens.flatMap chars ++ rest) =
      scanFrom .gap (v.tokens.reverse ++ ts) rest := by
  have hatom (v : Json) (hv : Legible (.atom v)) :
      scanFrom .gap ts ([atom v].flatMap chars ++ rest) = scanFrom .gap (.atom v :: ts) rest := by
    rw [List.flatMap_singleton]
    exact scanFrom_isWord hv hrest
  cases v with
  | null => exact hatom .null isWord_null
  | bool b => exact hatom (.bool b) (isWord_bool b)
  | uint n => exact hatom (.uint n) (isWord_uint n)
  | number text => exact hatom (.number text) (hv _ List.mem_cons_self)
  | string text =>
    unfold tokens
    rw [List.flatMap_singleton]
    exact scanFrom_quote text
  | array items =>
    cases items with
    | nil => rfl
    | cons v items =>
      unfold tokens at hv
      have hopen (us : List Char) :
          scanFrom .gap ts (chars .openArray ++ us) = scanFrom .gap (.openArray :: ts) us :=
        scanFrom_of_next rfl
      unfold tokens
      rw [List.flatMap_cons, List.flatMap_append, List.append_assoc, hopen, List.append_assoc,
        scanFrom_tokens v (fun t ht => hv t (by simp [ht])) _ (ends_itemTokens items rest),
        scanFrom_itemTokens items (fun t ht => hv t (by simp [ht]))]
      simp
  | object members =>
    cases members with
    | nil => rfl
    | cons m members =>
      obtain ⟨name, v⟩ := m
      unfold tokens at hv
      have hopen (us : List Char) :
          scanFrom .gap ts (chars .openObject ++ us) = scanFrom .gap (.openObject :: ts) us :=
        scanFrom_of_next rfl
      unfold tokens
      simp only [List.flatMap_cons, List.flatMap_append, List.append_assoc]
      rw [hopen, scanFrom_name,
        scanFrom_tokens v (fun t ht => hv t (by simp [ht])) _ (ends_memberTokens members rest),
        scanFrom_memberTokens members (fun t ht => hv t (by simp [ht]))]
      simp

theorem scanFrom_itemTokens (items : List Json) (h : ∀ t ∈ itemTokens items, t.Legible)
    (ts : List Token) (rest : List Char) :
    scanFrom .gap ts ((itemTokens items).flatMap chars ++ rest) =
      scanFrom .gap ((itemTokens items).reverse ++ ts) rest := by
  cases items with
  | nil =>
    unfold itemTokens
    exact scanFrom_of_next rfl
  | cons v items =>
    unfold itemTokens at h
    have hcomma (us : List Char) :
        scanFrom .gap ts (chars .comma ++ us) = scanFrom .gap (.comma :: ts) us :=
      scanFrom_of_next rfl
    unfold itemTokens
    rw [List.flatMap_cons, List.flatMap_append, List.append_assoc, hcomma, List.append_assoc,
      scanFrom_tokens v (fun t ht => h t (by simp [ht])) _ (ends_itemTokens items rest),
      scanFrom_itemTokens items (fun t ht => h t (by simp [ht]))]
    simp

theorem scanFrom_memberTokens (members : List (String × Json))
    (h : ∀ t ∈ memberTokens members, t.Legible) (ts : List Token) (rest : List Char) :
    scanFrom .gap ts ((memberTokens members).flatMap chars ++ rest) =
      scanFrom .gap ((memberTokens members).reverse ++ ts) rest := by
  cases members with
  | nil =>
    unfold memberTokens
    exact scanFrom_of_next rfl
  | cons m members =>
    obtain ⟨name, v⟩ := m
    unfold memberTokens at h
    have hcomma (us : List Char) :
        scanFrom .gap ts (chars .comma ++ us) = scanFrom .gap (.comma :: ts) us :=
      scanFrom_of_next rfl
    unfold memberTokens
    simp only [List.flatMap_cons, List.flatMap_append, List.append_assoc]
    rw [hcomma, scanFrom_name,
      scanFrom_tokens v (fun t ht => h t (by simp [ht])) _ (ends_memberTokens members rest),
      scanFrom_memberTokens members (fun t ht => h t (by simp [ht]))]
    simp

end

/-- The tokens of a value are found in its text without white space. -/
theorem scan_compact {v : Json} (hv : ∀ t ∈ v.tokens, t.Legible) :
    scan v.compact.toList = some v.tokens := by
  have h := scanFrom_tokens v hv [] ends_nil
  rw [List.append_nil, List.append_nil] at h
  rw [compact, String.toList_ofList, scan, h, scanFrom, finish, List.reverse_reverse]

end Tokens

/-! ### Values -/

theorem itemsDepth_le {items : List Json} {n : Nat} (h : ∀ v ∈ items, v.depth ≤ n) :
    itemsDepth items ≤ n := by
  induction items with
  | nil => exact Nat.zero_le n
  | cons v items ih =>
    obtain ⟨hv, hitems⟩ := List.forall_mem_cons.1 h
    exact Nat.max_le.2 ⟨hv, ih hitems⟩

theorem membersDepth_le {members : List (String × Json)} {n : Nat}
    (h : ∀ m ∈ members, m.2.depth ≤ n) : membersDepth members ≤ n := by
  induction members with
  | nil => exact Nat.zero_le n
  | cons m members ih =>
    obtain ⟨hm, hmembers⟩ := List.forall_mem_cons.1 h
    exact Nat.max_le.2 ⟨hm, ih hmembers⟩

theorem legible_itemTokens {items : List Json} (h : ∀ v ∈ items, ∀ t ∈ v.tokens, t.Legible) :
    ∀ t ∈ itemTokens items, t.Legible := by
  induction items with
  | nil =>
    intro t ht
    rw [List.mem_singleton.1 ht]
    trivial
  | cons v items ih =>
    obtain ⟨hv, hitems⟩ := List.forall_mem_cons.1 h
    intro t ht
    simp only [itemTokens, List.mem_cons, List.mem_append] at ht
    rcases ht with rfl | ht | ht
    · trivial
    · exact hv t ht
    · exact ih hitems t ht

theorem legible_memberTokens {members : List (String × Json)}
    (h : ∀ m ∈ members, ∀ t ∈ m.2.tokens, t.Legible) :
    ∀ t ∈ memberTokens members, t.Legible := by
  induction members with
  | nil =>
    intro t ht
    rw [List.mem_singleton.1 ht]
    trivial
  | cons m members ih =>
    obtain ⟨hm, hmembers⟩ := List.forall_mem_cons.1 h
    intro t ht
    simp only [memberTokens, List.mem_cons, List.mem_append] at ht
    rcases ht with rfl | rfl | rfl | ht | ht
    · trivial
    · trivial
    · trivial
    · exact hm t ht
    · exact ih hmembers t ht

/-- A value that is read back from its text, with no more arrays and objects in each other than
`depth`. -/
structure Printable (depth : Nat) (v : Json) : Prop where
  legible : ∀ t ∈ v.tokens, t.Legible
  depth_le : v.depth ≤ depth

namespace Printable

variable {n : Nat}

theorem uint (n : Nat) (a : UInt64) : Printable n (.uint a) where
  legible t ht := by
    rw [List.mem_singleton.1 ht]
    exact Token.isWord_uint a
  depth_le := Nat.zero_le n

theorem string (n : Nat) (s : String) : Printable n (.string s) where
  legible t ht := by
    rw [List.mem_singleton.1 ht]
    trivial
  depth_le := Nat.zero_le n

theorem array {items : List Json} (h : ∀ v ∈ items, Printable n v) :
    Printable (n + 1) (.array items) where
  legible := by
    cases items with
    | nil =>
      intro t ht
      simp only [tokens, List.mem_cons, List.not_mem_nil, or_false] at ht
      rcases ht with rfl | rfl <;> trivial
    | cons v items =>
      obtain ⟨hv, hitems⟩ := List.forall_mem_cons.1 h
      intro t ht
      simp only [tokens, List.mem_cons, List.mem_append] at ht
      rcases ht with rfl | ht | ht
      · trivial
      · exact hv.legible t ht
      · exact legible_itemTokens (fun w hw => (hitems w hw).legible) t ht
  depth_le := Nat.succ_le_succ (itemsDepth_le fun v hv => (h v hv).depth_le)

theorem object {members : List (String × Json)} (h : ∀ m ∈ members, Printable n m.2) :
    Printable (n + 1) (.object members) where
  legible := by
    cases members with
    | nil =>
      intro t ht
      simp only [tokens, List.mem_cons, List.not_mem_nil, or_false] at ht
      rcases ht with rfl | rfl <;> trivial
    | cons m members =>
      obtain ⟨hm, hmembers⟩ := List.forall_mem_cons.1 h
      intro t ht
      simp only [tokens, List.mem_cons, List.mem_append] at ht
      rcases ht with rfl | rfl | rfl | ht | ht
      · trivial
      · trivial
      · trivial
      · exact hm.legible t ht
      · exact legible_memberTokens (fun w hw => (hmembers w hw).legible) t ht
  depth_le := Nat.succ_le_succ (membersDepth_le fun m hm => (h m hm).depth_le)

/-- A value is read back from the text that is printed for it without white space. -/
theorem parse?_compact {v : Json} (h : Printable n v) (hn : n ≤ Parse.maxDepth) :
    parse? v.compact = some v := by
  rw [parse?, scan_compact h.legible]
  exact ofTokens?_tokens (Nat.le_trans h.depth_le hn)

end Printable

end WireSchema.Json
