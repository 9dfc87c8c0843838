import WireSchema.Json.Parse
import WireSchema.Proofs.Json.Scanning

/-!
# Reading printed JSON text

The tokens of a value are taken in for the value, whatever is open around it, as long as no more
than 127 arrays and objects are open at a time.

* `Json.depth`: how deep arrays and objects are nested in a value.
* `Json.parse?_pretty`: a value that is printed is read back.
-/

namespace WireSchema.Json

mutual

/-- The number of arrays and objects that are open at a time. -/
def depth : Json → Nat
  | array items => itemsDepth items + 1
  | object members => membersDepth members + 1
  | _ => 0

/-- The depth of the deepest item. -/
def itemsDepth : List Json → Nat
  | [] => 0
  | v :: rest => max (depth v) (itemsDepth rest)

/-- The depth of the deepest member. -/
def membersDepth : List (String × Json) → Nat
  | [] => 0
  | (_, v) :: rest => max (depth v) (membersDepth rest)

end

namespace Parse

theorem run_of_step {state state' : Parse} {t : Token} (h : step state t = some state')
    (rest : List Token) : run state (t :: rest) = run state' rest := by
  simp only [run, h]

/-! ### Values among tokens -/

/-- A value may begin in this state, among the given arrays and objects. -/
def Awaits (state : Parse) (frames : List Frame) : Prop :=
  ∀ t, t ≠ .closeArray → step state t = beginValue frames t

theorem awaits_value (frames : List Frame) : Awaits (.value frames) frames := fun _ _ => rfl

theorem awaits_firstItem (frames : List Frame) :
    Awaits (.firstItem frames) (.array [] :: frames) := by
  intro t ht
  cases t with
  | closeArray => exact absurd rfl ht
  | _ => rfl

mutual

/-- The tokens of a value are taken in for the value. -/
theorem run_tokens (v : Json) (frames : List Frame) {state : Parse} (hstate : Awaits state frames)
    (hdepth : frames.length + v.depth ≤ maxDepth) (rest : List Token) :
    run state (v.tokens ++ rest) = run (.after v frames) rest := by
  cases v with
  | null => exact run_of_step (hstate (.atom .null) (by simp)) rest
  | bool b => exact run_of_step (hstate (.atom (.bool b)) (by simp)) rest
  | uint n => exact run_of_step (hstate (.atom (.uint n)) (by simp)) rest
  | number text => exact run_of_step (hstate (.atom (.number text)) (by simp)) rest
  | string text => exact run_of_step (hstate (.text text) (by simp)) rest
  | array items =>
    unfold depth at hdepth
    have hopen : step state .openArray = some (.firstItem frames) := by
      rw [hstate .openArray (by simp)]
      exact if_pos (by omega)
    cases items with
    | nil =>
      unfold tokens
      exact (run_of_step hopen _).trans (run_of_step rfl rest)
    | cons v items =>
      unfold itemsDepth at hdepth
      have hv := run_tokens v (.array [] :: frames) (awaits_firstItem frames)
        (by rw [List.length_cons]; omega) (itemTokens items ++ rest)
      have hitems := run_itemTokens items v [] frames (by omega) rest
      unfold tokens
      rw [List.cons_append, run_of_step hopen, List.append_assoc, hv, hitems]
      rfl
  | object members =>
    unfold depth at hdepth
    have hopen : step state .openObject = some (.firstKey frames) := by
      rw [hstate .openObject (by simp)]
      exact if_pos (by omega)
    cases members with
    | nil =>
      unfold tokens
      exact (run_of_step hopen _).trans (run_of_step rfl rest)
    | cons m members =>
      obtain ⟨name, v⟩ := m
      unfold membersDepth at hdepth
      have hkey (us : List Token) :
          run (.firstKey frames) (.text name :: .colon :: us) =
            run (.value (.object [] name :: frames)) us := rfl
      have hv := run_tokens v (.object [] name :: frames) (awaits_value _)
        (by rw [List.length_cons]; omega) (memberTokens members ++ rest)
      have hmembers := run_memberTokens members v name [] frames (by omega) rest
      unfold tokens
      simp only [List.cons_append, List.append_assoc]
      rw [run_of_step hopen, hkey, hv, hmembers]
      rfl

/-- The tokens after an item of an array are taken in for the other items. -/
theorem run_itemTokens (items : List Json) (v : Json) (done : List Json) (frames : List Frame)
    (hdepth : frames.length + 1 + itemsDepth items ≤ maxDepth) (rest : List Token) :
    run (.after v (.array done :: frames)) (itemTokens items ++ rest) =
      run (.after (.array (done.reverse ++ v :: items)) frames) rest := by
  cases items with
  | nil =>
    unfold itemTokens
    refine (run_of_step rfl rest).trans ?_
    rw [List.reverse_cons]
  | cons w items =>
    unfold itemsDepth at hdepth
    have hcomma (us : List Token) :
        run (.after v (.array done :: frames)) (.comma :: us) =
          run (.value (.array (v :: done) :: frames)) us := rfl
    have hw := run_tokens w (.array (v :: done) :: frames) (awaits_value _)
      (by rw [List.length_cons]; omega) (itemTokens items ++ rest)
    have hitems := run_itemTokens items w (v :: done) frames (by omega) rest
    unfold itemTokens
    rw [List.cons_append, hcomma, List.append_assoc, hw, hitems, List.reverse_cons,
      List.append_assoc, List.singleton_append]

theorem run_memberTokens (members : List (String × Json)) (v : Json) (name : String)
    (done : List (String × Json)) (frames : List Frame)
    (hdepth : frames.length + 1 + membersDepth members ≤ maxDepth) (rest : List Token) :
    run (.after v (.object done name :: frames)) (memberTokens members ++ rest) =
      run (.after (.object (done.reverse ++ (name, v) :: members)) frames) rest := by
  cases members with
  | nil =>
    unfold memberTokens
    refine (run_of_step rfl rest).trans ?_
    rw [List.reverse_cons]
  | cons m members =>
    obtain ⟨other, w⟩ := m
    unfold membersDepth at hdepth
    have hcomma (us : List Token) :
        run (.after v (.object done name :: frames)) (.comma :: .text other :: .colon :: us) =
          run (.value (.object ((name, v) :: done) other :: frames)) us := rfl
    have hw := run_tokens w (.object ((name, v) :: done) other :: frames) (awaits_value _)
      (by rw [List.length_cons]; omega) (memberTokens members ++ rest)
    have hmembers := run_memberTokens members w other ((name, v) :: done) frames (by omega) rest
    unfold memberTokens
    simp only [List.cons_append, List.append_assoc]
    rw [hcomma, hw, hmembers, List.reverse_cons, List.append_assoc, List.singleton_append]

end

end Parse

/-- The tokens of a value have the value. -/
theorem ofTokens?_tokens {v : Json} (hdepth : v.depth ≤ Parse.maxDepth) :
    ofTokens? v.tokens = some v := by
  have h := Parse.run_tokens v [] (Parse.awaits_value []) (by simpa using hdepth) []
  rw [List.append_nil, Parse.run_nil] at h
  unfold ofTokens?
  rw [h]
  rfl

/-- A value is read back from the text that is printed for it. -/
theorem parse?_pretty {v : Json} (hv : ∀ t ∈ v.tokens, t.Legible)
    (hdepth : v.depth ≤ Parse.maxDepth) : parse? v.pretty = some v := by
  rw [parse?, scan_pretty hv]
  exact ofTokens?_tokens hdepth

end WireSchema.Json
