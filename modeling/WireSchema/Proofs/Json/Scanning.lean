import WireSchema.Json.Print
import Mathlib.Data.List.TakeWhile

/-!
# The tokens of printed text

A token is found again in the text that spells it. Brackets, commas, colons and strings end with
their last character. A number or a name goes on as long as there are characters for it, so it is
found where another character follows, or nothing (`Token.Ends`).

* `Token.Legible`: a token whose spelling is read as the token.
* `Json.scan_pretty`: the text of a value has the tokens of the value.
-/

namespace WireSchema.Json

namespace Token

variable {tokens : List Token} {rest : List Char}

/-! ### Steps -/

theorem scanFrom_of_next {state state' : Scan} {tokens' : List Token} {c : Char}
    (h : next c tokens state = some (state', tokens')) :
    scanFrom state tokens (c :: rest) = scanFrom state' tokens' rest := by
  simp only [scanFrom, h]

/-- A line feed or a space between tokens is passed over. -/
theorem scanFrom_blank {c : Char} (h : c = ' ' ∨ c = '\n') :
    scanFrom .gap tokens (c :: rest) = scanFrom .gap tokens rest := by
  rcases h with rfl | rfl <;> rfl

theorem scanFrom_newLine (depth : Nat) :
    scanFrom .gap tokens (newLine depth ++ rest) = scanFrom .gap tokens rest := by
  have hspaces (n : Nat) :
      scanFrom .gap tokens (List.replicate n ' ' ++ rest) = scanFrom .gap tokens rest := by
    induction n with
    | zero => rfl
    | succ n ih => rw [List.replicate_succ, List.cons_append, scanFrom_blank (.inl rfl), ih]
  rw [newLine, List.cons_append, scanFrom_blank (.inr rfl), hspaces]

/-! ### Strings -/

section Strings

variable {done : List Char}

theorem scanFrom_codeDigit {high : Option Nat} {count value digit : Nat} {c : Char}
    (hdigit : Hex.digitValue? c = some digit) (hcount : count < 3) :
    scanFrom (.code done high count value) tokens (c :: rest) =
      scanFrom (.code done high (count + 1) (16 * value + digit)) tokens rest :=
  scanFrom_of_next (by simp [next, hdigit, hcount])

/-- The last digit of a code unit that is no surrogate. -/
theorem scanFrom_codeEnd {value digit : Nat} {c : Char} (hdigit : Hex.digitValue? c = some digit)
    (hunit : 16 * value + digit < 0xd800) :
    scanFrom (.code done none 3 value) tokens (c :: rest) =
      scanFrom (.text (Char.ofNat (16 * value + digit) :: done)) tokens rest := by
  have hhigh : ¬(0xd800 ≤ 16 * value + digit ∧ 16 * value + digit ≤ 0xdbff) := by omega
  have hlow : ¬(0xdc00 ≤ 16 * value + digit ∧ 16 * value + digit ≤ 0xdfff) := by omega
  have hcode : codeUnit? done none (16 * value + digit) =
      some (.text (Char.ofNat (16 * value + digit) :: done)) := by
    unfold codeUnit?
    simp only [if_neg hhigh, if_neg hlow]
  exact scanFrom_of_next (by simp [next, hdigit, hcode])

/-- A character of a string is read from its spelling. -/
theorem scanFrom_escape (c : Char) :
    scanFrom (.text done) tokens (escape c ++ rest) =
      scanFrom (.text (c :: done)) tokens rest := by
  unfold escape
  split_ifs with hquote hbackslash hb hf hn hr ht hcontrol
  case pos => subst hquote; rfl
  case pos => subst hbackslash; rfl
  case pos => subst hb; rfl
  case pos => subst hf; rfl
  case pos => subst hn; rfl
  case pos => subst hr; rfl
  case pos => subst ht; rfl
  case pos =>
    -- a control character is spelled as a code unit of four digits, the first two of them zero
    have hhigh := Hex.digitValue?_digit (n := c.toNat / 16) (by omega)
    have hlow := Hex.digitValue?_digit (n := c.toNat % 16) (by omega)
    have hzero : Hex.digitValue? '0' = some 0 := rfl
    have hvalue : 16 * (16 * (16 * (16 * 0 + 0) + 0) + c.toNat / 16) + c.toNat % 16 = c.toNat := by
      omega
    have hstart : scanFrom (.text done) tokens
        ('\\' :: 'u' :: '0' :: '0' :: Hex.digit (c.toNat / 16) :: Hex.digit (c.toNat % 16) :: rest) =
        scanFrom (.code done none 0 0) tokens
          ('0' :: '0' :: Hex.digit (c.toNat / 16) :: Hex.digit (c.toNat % 16) :: rest) := rfl
    refine hstart.trans ?_
    rw [scanFrom_codeDigit hzero (by omega), scanFrom_codeDigit hzero (by omega),
      scanFrom_codeDigit hhigh (by omega), scanFrom_codeEnd hlow (by omega), hvalue,
      Char.ofNat_toNat]
  case neg => exact scanFrom_of_next (by simp [next, hquote, hbackslash, hcontrol])

theorem scanFrom_characters (s : List Char) :
    scanFrom (.text done) tokens (s.flatMap escape ++ rest) =
      scanFrom (.text (s.reverse ++ done)) tokens rest := by
  induction s generalizing done with
  | nil => rfl
  | cons c s ih =>
    rw [List.flatMap_cons, List.append_assoc, scanFrom_escape, ih, List.reverse_cons,
      List.append_assoc, List.singleton_append]

/-- A string is read from its spelling. -/
theorem scanFrom_quote (s : String) :
    scanFrom .gap tokens (quote s ++ rest) = scanFrom .gap (.text s :: tokens) rest := by
  have hopen : scanFrom .gap tokens (quote s ++ rest) =
      scanFrom (.text []) tokens (s.toList.flatMap escape ++ ('"' :: rest)) := by
    rw [quote, List.cons_append, List.append_assoc, List.singleton_append]
    exact scanFrom_of_next rfl
  have hclose : scanFrom (.text s.toList.reverse) tokens ('"' :: rest) =
      scanFrom .gap (.text (String.ofList s.toList.reverse.reverse) :: tokens) rest :=
    scanFrom_of_next rfl
  rw [hopen, scanFrom_characters, List.append_nil, hclose, List.reverse_reverse,
    String.ofList_toList]

end Strings

/-! ### Numbers and names -/

/-- A number or a name would not go on with this text. -/
def Ends (rest : List Char) : Prop := ∀ c ∈ rest.head?, isWordChar c = false

theorem ends_nil : Ends [] := nofun

theorem ends_cons {c : Char} (h : isWordChar c = false) : Ends (c :: rest) := by
  intro d hd
  cases hd
  exact h

/-- The text is read as the token, and is a number or a name by its characters. -/
structure IsWord (word : List Char) (t : Token) : Prop where
  nonempty : word ≠ []
  all : ∀ c ∈ word, isWordChar c = true
  ofWord : ofWord? word = some t

/-- A character of a word is none that stands for itself. -/
theorem begin_of_isWordChar {c : Char} (h : isWordChar c = true) :
    begin c tokens = some (.word [c], tokens) := by
  unfold begin
  split
  case h_12 => rw [if_pos h]
  all_goals exact absurd h (by decide)

theorem scanFrom_word {word done : List Char} (h : ∀ c ∈ word, isWordChar c = true) :
    scanFrom (.word done) tokens (word ++ rest) =
      scanFrom (.word (word.reverse ++ done)) tokens rest := by
  induction word generalizing done with
  | nil => rfl
  | cons c word ih =>
    obtain ⟨hc, hword⟩ := List.forall_mem_cons.1 h
    have hnext : next c tokens (.word done) = some (.word (c :: done), tokens) := if_pos hc
    rw [List.cons_append, scanFrom_of_next hnext, ih hword, List.reverse_cons, List.append_assoc,
      List.singleton_append]

/-- A word ends where no character follows that could be part of it. -/
theorem scanFrom_wordEnd {done : List Char} {t : Token} (h : ofWord? done.reverse = some t)
    (hrest : Ends rest) :
    scanFrom (.word done) tokens rest = scanFrom .gap (t :: tokens) rest := by
  cases rest with
  | nil => simp only [scanFrom, finish, h, bind, Option.bind, pure]
  | cons c rest =>
    have hc : ¬isWordChar c = true := by
      rw [hrest c rfl]
      decide
    have hnext : next c tokens (.word done) = next c (t :: tokens) .gap := by
      simp only [next, if_neg hc, h, bind, Option.bind]
    simp only [scanFrom, hnext]

theorem scanFrom_isWord {word : List Char} {t : Token} (h : IsWord word t) (hrest : Ends rest) :
    scanFrom .gap tokens (word ++ rest) = scanFrom .gap (t :: tokens) rest := by
  obtain ⟨hne, hall, hword⟩ := h
  obtain ⟨c, word, rfl⟩ := List.exists_cons_of_ne_nil hne
  obtain ⟨hc, hall⟩ := List.forall_mem_cons.1 hall
  have hnext : next c tokens .gap = some (.word [c], tokens) := begin_of_isWordChar hc
  rw [List.cons_append, scanFrom_of_next hnext, scanFrom_word hall]
  refine scanFrom_wordEnd ?_ hrest
  rw [List.reverse_append, List.reverse_reverse]
  exact hword

/-! ### Spelled numbers -/

/-- The digits of a number make the number up. -/
theorem decimalValue_toDigits (n : Nat) : decimalValue (Nat.toDigits 10 n) = n := by
  have hdigit : ∀ d < 10, digitValue (Nat.digitChar d) = d := by decide
  induction n using Nat.strong_induction_on with
  | h n ih =>
    by_cases hn : n < 10
    · rw [Nat.toDigits_of_lt_base hn]
      simp [decimalValue, hdigit n hn]
    · have hlast := hdigit (n % 10) (by omega)
      have hfront := ih (n / 10) (by omega)
      unfold decimalValue at hfront ⊢
      rw [Nat.toDigits_of_base_le (by omega) (by omega), List.foldl_append, hfront]
      simp only [List.foldl_cons, List.foldl_nil, hlast]
      omega

/-- No digit is written before the first that counts. -/
theorem toDigits_ne_zero_cons (n : Nat) (c : Char) (cs : List Char) :
    Nat.toDigits 10 n ≠ '0' :: c :: cs := by
  have hdigit : ∀ d < 10, Nat.digitChar d = '0' → d = 0 := by decide
  induction n using Nat.strong_induction_on generalizing c cs with
  | h n ih =>
    by_cases hn : n < 10
    · rw [Nat.toDigits_of_lt_base hn]
      simp
    · rw [Nat.toDigits_of_base_le (by omega) (by omega)]
      intro h
      cases hfront : Nat.toDigits 10 (n / 10) with
      | nil => exact Nat.toDigits_ne_nil hfront
      | cons d ds =>
        rw [hfront, List.cons_append, List.cons.injEq] at h
        obtain ⟨rfl, -⟩ := h
        cases ds with
        | cons e es => exact ih (n / 10) (by omega) e es hfront
        | nil =>
          -- a single digit before the last is the number without the last, which is not zero
          have hvalue := decimalValue_toDigits (n / 10)
          rw [hfront] at hvalue
          have hzero : decimalValue ['0'] = 0 := rfl
          omega

theorem digits?_of_all {ds : List Char} (hne : ds ≠ []) (h : ∀ c ∈ ds, c.isDigit = true) :
    Number.digits? ds = some (ds, []) := by
  have htake : ds.takeWhile Char.isDigit = ds := List.takeWhile_eq_self_iff.2 h
  have hdrop : ds.dropWhile Char.isDigit = [] := List.dropWhile_eq_nil_iff.2 h
  unfold Number.digits?
  rw [htake, hdrop]
  split
  · exact absurd rfl hne
  · rfl

/-- Digits alone are a whole number. -/
theorem ofChars?_of_digits {ds : List Char} (hne : ds ≠ []) (h : ∀ c ∈ ds, c.isDigit = true)
    (hzero : ∀ c cs, ds ≠ '0' :: c :: cs) :
    Number.ofChars? ds = some ⟨false, ds, none, none⟩ := by
  have hwhole : Number.whole? ds = some (ds, []) := by
    unfold Number.whole?
    rw [digits?_of_all hne h]
    split
    · next heq =>
      cases heq
      exact absurd rfl (hzero _ _)
    · rfl
  unfold Number.ofChars?
  split
  next negative text heq =>
  split at heq
  · exact absurd (h '-' List.mem_cons_self) (by decide)
  · cases heq
    rw [hwhole]
    rfl

/-- A machine word is read from its digits. -/
theorem isWord_uint (n : UInt64) : IsWord (atomChars (.uint n)) (.atom (.uint n)) := by
  have hdigits : ∀ c ∈ Nat.toDigits 10 n.toNat, c.isDigit = true := fun c hc =>
    Nat.isDigit_of_mem_toDigits (by decide) (by decide) hc
  have hnumber := ofChars?_of_digits Nat.toDigits_ne_nil hdigits (toDigits_ne_zero_cons n.toNat)
  have hvalue : (Number.mk false (Nat.toDigits 10 n.toNat) none none).toJson?
      (Nat.toDigits 10 n.toNat) = some (.uint n) := by
    have hlt : n.toNat < 2 ^ 64 := n.toNat_lt
    simp only [Number.toJson?, decimalValue_toDigits, Bool.not_false, true_and, hlt, if_true,
      UInt64.ofNat_toNat]
  have hname (c : Char) (cs : List Char) (hc : c.isDigit = false) :
      Nat.toDigits 10 n.toNat ≠ c :: cs := by
    intro heq
    have := hdigits c (by rw [heq]; exact List.mem_cons_self)
    rw [hc] at this
    cases this
  refine ⟨Nat.toDigits_ne_nil, ?_, ?_⟩
  · intro c hc
    have := hdigits c hc
    simp [isWordChar, Char.isAlphanum, this]
  · unfold ofWord? atomChars
    rw [if_neg (hname _ _ (by decide)), if_neg (hname _ _ (by decide)),
      if_neg (hname _ _ (by decide)), hnumber]
    simp only [bind, Option.bind, hvalue, pure]

theorem isWord_null : IsWord (atomChars .null) (.atom .null) :=
  ⟨by decide, List.all_eq_true.mp rfl, rfl⟩

theorem isWord_bool (b : Bool) : IsWord (atomChars (.bool b)) (.atom (.bool b)) := by
  cases b with
  | true => exact ⟨by decide, List.all_eq_true.mp rfl, rfl⟩
  | false => exact ⟨by decide, List.all_eq_true.mp rfl, rfl⟩

/-- A token that is read from its spelling. -/
def Legible : Token → Prop
  | .atom v => IsWord (atomChars v) (.atom v)
  | _ => True

end Token

/-! ### Texts on several lines -/

section Pretty

open Token

/-- What follows an item of an array does not go on with the item. -/
theorem ends_prettyItems (depth : Nat) (items : List Json) (rest : List Char) :
    Ends (prettyItems depth items ++ rest) := by
  cases items with
  | nil =>
    unfold prettyItems newLine
    exact ends_cons (by decide)
  | cons v items =>
    unfold prettyItems
    exact ends_cons (by decide)

theorem ends_prettyMembers (depth : Nat) (members : List (String × Json)) (rest : List Char) :
    Ends (prettyMembers depth members ++ rest) := by
  cases members with
  | nil =>
    unfold prettyMembers newLine
    exact ends_cons (by decide)
  | cons m members =>
    unfold prettyMembers
    exact ends_cons (by decide)

/-- A key is read together with the colon after it. -/
theorem scanFrom_key (name : String) (ts : List Token) (rest : List Char) :
    scanFrom .gap ts (quote name ++ ':' :: ' ' :: rest) =
      scanFrom .gap (.colon :: .text name :: ts) rest := by
  have hcolon (us : List Token) :
      scanFrom .gap us (':' :: ' ' :: rest) = scanFrom .gap (.colon :: us) (' ' :: rest) :=
    scanFrom_of_next rfl
  rw [scanFrom_quote, hcolon, scanFrom_blank (.inl rfl)]

mutual

/-- A value is spelled by its tokens, on whatever line. -/
theorem scanFrom_prettyChars (v : Json) (hv : ∀ t ∈ v.tokens, t.Legible) (depth : Nat)
    (ts : List Token) {rest : List Char} (hrest : Ends rest) :
    scanFrom .gap ts (v.prettyChars depth ++ rest) =
      scanFrom .gap (v.tokens.reverse ++ ts) rest := by
  cases v with
  | null => exact scanFrom_isWord isWord_null hrest
  | bool b => exact scanFrom_isWord (isWord_bool b) hrest
  | uint n => exact scanFrom_isWord (isWord_uint n) hrest
  | number text => exact scanFrom_isWord (hv _ List.mem_cons_self) hrest
  | string text => exact scanFrom_quote text
  | array items =>
    cases items with
    | nil => rfl
    | cons v items =>
      unfold tokens at hv
      have hopen (us : List Char) :
          scanFrom .gap ts ('[' :: us) = scanFrom .gap (.openArray :: ts) us :=
        scanFrom_of_next rfl
      unfold prettyChars tokens
      rw [List.cons_append, hopen, List.append_assoc, scanFrom_newLine, List.append_assoc,
        scanFrom_prettyChars v (fun t ht => hv t (by simp [ht])) (depth + 1) _
          (ends_prettyItems depth items rest),
        scanFrom_prettyItems items (fun t ht => hv t (by simp [ht])) depth]
      simp
  | object members =>
    cases members with
    | nil => rfl
    | cons m members =>
      obtain ⟨name, v⟩ := m
      unfold tokens at hv
      have hopen (us : List Char) :
          scanFrom .gap ts ('{' :: us) = scanFrom .gap (.openObject :: ts) us :=
        scanFrom_of_next rfl
      unfold prettyChars tokens
      simp only [List.cons_append, List.append_assoc]
      rw [hopen, scanFrom_newLine, scanFrom_key,
        scanFrom_prettyChars v (fun t ht => hv t (by simp [ht])) (depth + 1) _
          (ends_prettyMembers depth members rest),
        scanFrom_prettyMembers members (fun t ht => hv t (by simp [ht])) depth]
      simp

theorem scanFrom_prettyItems (items : List Json) (h : ∀ t ∈ itemTokens items, t.Legible)
    (depth : Nat) (ts : List Token) (rest : List Char) :
    scanFrom .gap ts (prettyItems depth items ++ rest) =
      scanFrom .gap ((itemTokens items).reverse ++ ts) rest := by
  cases items with
  | nil =>
    unfold prettyItems itemTokens
    rw [List.append_assoc, scanFrom_newLine]
    exact scanFrom_of_next rfl
  | cons v items =>
    unfold itemTokens at h
    have hcomma (us : List Char) :
        scanFrom .gap ts (',' :: us) = scanFrom .gap (.comma :: ts) us :=
      scanFrom_of_next rfl
    unfold prettyItems itemTokens
    rw [List.cons_append, hcomma, List.append_assoc, scanFrom_newLine, List.append_assoc,
      scanFrom_prettyChars v (fun t ht => h t (by simp [ht])) (depth + 1) _
        (ends_prettyItems depth items rest),
      scanFrom_prettyItems items (fun t ht => h t (by simp [ht])) depth]
    simp

theorem scanFrom_prettyMembers (members : List (String × Json))
    (h : ∀ t ∈ memberTokens members, t.Legible) (depth : Nat) (ts : List Token)
    (rest : List Char) :
    scanFrom .gap ts (prettyMembers depth members ++ rest) =
      scanFrom .gap ((memberTokens members).reverse ++ ts) rest := by
  cases members with
  | nil =>
    unfold prettyMembers memberTokens
    rw [List.append_assoc, scanFrom_newLine]
    exact scanFrom_of_next rfl
  | cons m members =>
    obtain ⟨name, v⟩ := m
    unfold memberTokens at h
    have hcomma (us : List Char) :
        scanFrom .gap ts (',' :: us) = scanFrom .gap (.comma :: ts) us :=
      scanFrom_of_next rfl
    unfold prettyMembers memberTokens
    simp only [List.cons_append, List.append_assoc]
    rw [hcomma, scanFrom_newLine, scanFrom_key,
      scanFrom_prettyChars v (fun t ht => h t (by simp [ht])) (depth + 1) _
        (ends_prettyMembers depth members rest),
      scanFrom_prettyMembers members (fun t ht => h t (by simp [ht])) depth]
    simp

end

/-- The tokens of a value are found in its text. -/
theorem scan_pretty {v : Json} (hv : ∀ t ∈ v.tokens, t.Legible) :
    scan v.pretty.toList = some v.tokens := by
  have h := scanFrom_prettyChars v hv 0 [] ends_nil
  rw [List.append_nil, List.append_nil] at h
  rw [pretty, String.toList_ofList, scan, h, scanFrom, finish, List.reverse_reverse]

end Pretty

end WireSchema.Json
