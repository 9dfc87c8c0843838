import WireSchema.Text.Hex

/-!
# Spellings of bytes

The same bytes can be written as hexadecimal text in many ways: with or without a mark in front, in
digits of either case, and with white space anywhere. `Hex.Spells` says which texts these are by
what is left of a text when its spelling is undone: the text that is written for the bytes, after
one of three marks at most.

* `Hex.digitValue?_eq_some_iff`: a digit of either case is one of the sixteen in lower case.
* `Hex.bytesOf_digits`: digits are read as the bytes for which they are written.
* `Hex.dropMark_eq_iff`: no digits begin with a mark, so all of them stand after it.
* `Hex.decode?_exact`: the spellings of some bytes, and no other texts, are read as these bytes.
-/

namespace WireSchema.Hex

/-! ### Undoing a spelling -/

/-- The character in lower case, if it is one of the letters among the digits. -/
def lowerDigit (c : Char) : Char :=
  if 0x41 ≤ c.toNat ∧ c.toNat ≤ 0x46 then Char.ofNat (c.toNat + 0x20) else c

/-- The characters of a text without its white space. -/
def bare (text : String) : List Char := text.toList.filter fun c => !isBlank c

/-- What may stand in front of the digits. -/
def marks : List String := ["", "0x", "0X"]

/-- Without white space and in lower case, the text is what is written for the bytes, or a mark and
what is written for them. -/
def Spells (text : String) (bs : Bytes) : Prop :=
  ∃ mark ∈ marks, (bare text).map lowerDigit = mark.toList ++ (encode bs).toList

/-! ### Digits -/

/-- What holds of the characters up to the last digit, which can be checked one by one, and of all
characters beyond it, holds of every character. -/
theorem of_digitRange {P : Char → Prop} (hlow : ∀ n < 0x67, P (Char.ofNat n))
    (hhigh : ∀ c : Char, 0x66 < c.toNat → P c) (c : Char) : P c := by
  by_cases h : c.toNat < 0x67
  · have hc := hlow c.toNat h
    rwa [Char.ofNat_toNat] at hc
  · exact hhigh c (by omega)

theorem digitValue?_lowerDigit (c : Char) : digitValue? (lowerDigit c) = digitValue? c := by
  refine of_digitRange (P := fun c => digitValue? (lowerDigit c) = digitValue? c) (by decide) ?_ c
  intro c hc
  rw [lowerDigit, if_neg (by omega)]

/-- A digit of either case is one of the sixteen in lower case. -/
theorem digitValue?_eq_some_iff {c : Char} {n : Nat} :
    digitValue? c = some n ↔ n < 16 ∧ lowerDigit c = digit n := by
  constructor
  · have hdigit : digitValue? c = none ∨
        ∃ m < 16, digitValue? c = some m ∧ lowerDigit c = digit m := by
      refine of_digitRange (P := fun c => digitValue? c = none ∨
        ∃ m < 16, digitValue? c = some m ∧ lowerDigit c = digit m) (by decide) ?_ c
      intro c hc
      left
      simp only [digitValue?]
      rw [if_neg (by omega), if_neg (by omega), if_neg (by omega)]
    intro h
    rcases hdigit with hnone | ⟨m, hm, hvalue, hlower⟩
    · cases hnone.symm.trans h
    · cases hvalue.symm.trans h
      exact ⟨hm, hlower⟩
  · rintro ⟨hn, hlower⟩
    rw [← digitValue?_lowerDigit, hlower, digitValue?_digit hn]

/-- No digit has a character of a mark for its lower case, apart from the character itself. -/
theorem eq_of_lowerDigit {c m : Char} (hm : m ∈ ['0', 'x', 'X']) (h : lowerDigit c = m) :
    c = m := by
  have hmark : m = '0' ∨ m = 'x' ∨ m = 'X' := by simpa using hm
  refine of_digitRange (P := fun c => lowerDigit c = m → c = m) ?_ ?_ c h
  · rcases hmark with rfl | rfl | rfl <;> decide
  · intro c hc h
    rwa [lowerDigit, if_neg (by omega)] at h

/-! ### Runs of digits -/

theorem encodeChars_eq_map (bs : Bytes) :
    encodeChars bs = (bs.flatMap fun b => [b.toNat / 16, b.toNat % 16]).map digit := by
  rw [encodeChars, List.map_flatMap]
  rfl

theorem mapM_digitValue?_eq_some_iff {cs : List Char} {ns : List Nat} :
    cs.mapM digitValue? = some ns ↔ (∀ n ∈ ns, n < 16) ∧ cs.map lowerDigit = ns.map digit := by
  induction cs generalizing ns with
  | nil => cases ns <;> simp
  | cons c cs ih =>
    rw [List.mapM_cons]
    constructor
    · intro h
      obtain ⟨n, hn, h⟩ := Option.bind_eq_some_iff.1 h
      obtain ⟨others, hothers, h⟩ := Option.bind_eq_some_iff.1 h
      cases h
      obtain ⟨hlt, hlower⟩ := digitValue?_eq_some_iff.1 hn
      obtain ⟨hall, hrest⟩ := ih.1 hothers
      refine ⟨List.forall_mem_cons.2 ⟨hlt, hall⟩, ?_⟩
      rw [List.map_cons, List.map_cons, hlower, hrest]
    · rintro ⟨hall, h⟩
      cases ns with
      | nil => cases h
      | cons n others =>
        obtain ⟨hlt, hall⟩ := List.forall_mem_cons.1 hall
        rw [List.map_cons, List.map_cons, List.cons.injEq] at h
        rw [digitValue?_eq_some_iff.2 ⟨hlt, h.1⟩, ih.2 ⟨hall, h.2⟩]
        rfl

/-- Numbers that are paired up are the two digits of each of the bytes. -/
theorem digits_of_pairUp {done bs : Bytes} {ns : List Nat} (hns : ∀ n ∈ ns, n < 16)
    (h : pairUp done ns = some bs) :
    ∃ rest, bs = done.reverse ++ rest ∧
      ns = rest.flatMap fun b => [b.toNat / 16, b.toNat % 16] := by
  induction done, ns using pairUp.induct with
  | case1 done =>
    cases h
    exact ⟨[], by simp, rfl⟩
  | case2 done digit => cases h
  | case3 done high low others ih =>
    have hhigh := hns high (by simp)
    have hlow := hns low (by simp)
    obtain ⟨rest, rfl, rfl⟩ := ih (fun n hn => hns n (by simp [hn])) h
    refine ⟨UInt8.ofNat (16 * high + low) :: rest, by simp, ?_⟩
    have hbyte : (UInt8.ofNat (16 * high + low)).toNat = 16 * high + low :=
      UInt8.toNat_ofNat_of_lt' (by unfold UInt8.size; omega)
    rw [List.flatMap_cons, hbyte]
    have hquotient : (16 * high + low) / 16 = high := by omega
    have hremainder : (16 * high + low) % 16 = low := by omega
    rw [hquotient, hremainder]
    rfl

/-- Digits of either case are read as the bytes for which they are written in lower case. -/
theorem bytesOf_digits {cs : List Char} {bs : Bytes} :
    (do pairUp [] (← cs.mapM digitValue?)) = some bs ↔ cs.map lowerDigit = encodeChars bs := by
  constructor
  · intro h
    obtain ⟨ns, hns, hpair⟩ := Option.bind_eq_some_iff.1 h
    obtain ⟨hall, hlower⟩ := mapM_digitValue?_eq_some_iff.1 hns
    obtain ⟨rest, rfl, rfl⟩ := digits_of_pairUp hall hpair
    rw [hlower, encodeChars_eq_map]
  · intro h
    rw [encodeChars_eq_map] at h
    have hall : ∀ n ∈ bs.flatMap fun b => [b.toNat / 16, b.toNat % 16], n < 16 := by
      intro n hn
      obtain ⟨b, -, hn⟩ := List.mem_flatMap.1 hn
      have hb := b.toNat_lt
      simp only [List.mem_cons, List.not_mem_nil, or_false] at hn
      omega
    rw [mapM_digitValue?_eq_some_iff.2 ⟨hall, h⟩]
    exact pairUp_digits [] bs

/-! ### Marks -/

theorem exists_marks_iff {P : List Char → Prop} :
    (∃ mark ∈ marks, P mark.toList) ↔ P [] ∨ P ['0', 'x'] ∨ P ['0', 'X'] := by
  simp [marks]

section Marks

variable {cs rest : List Char} {bs : Bytes} {m : Char}

/-- No bytes are written with a mark. -/
theorem encodeChars_ne_mark (hm : m = 'x' ∨ m = 'X') : encodeChars bs ≠ '0' :: m :: rest := by
  intro h
  have hdrop := dropMark_encodeChars bs
  have hlength : (dropMark ('0' :: m :: rest)).length = rest.length := by
    rcases hm with rfl | rfl <;> rfl
  rw [h] at hdrop
  rw [hdrop, List.length_cons, List.length_cons] at hlength
  omega

/-- A mark is the same when the digits are in lower case. -/
theorem map_lowerDigit_eq_mark_iff (hm : m = 'x' ∨ m = 'X') :
    cs.map lowerDigit = '0' :: m :: rest ↔
      ∃ ds, cs = '0' :: m :: ds ∧ ds.map lowerDigit = rest := by
  constructor
  · intro h
    obtain ⟨zero, tail, hcs, hzero, htail⟩ := List.map_eq_cons_iff.1 h
    obtain ⟨c, ds, hds, hc, hrest⟩ := List.map_eq_cons_iff.1 htail
    have hmark : m ∈ ['0', 'x', 'X'] := by rcases hm with rfl | rfl <;> simp
    rw [eq_of_lowerDigit (by simp) hzero, hds, eq_of_lowerDigit hmark hc] at hcs
    exact ⟨ds, hcs, hrest⟩
  · rintro ⟨ds, rfl, rfl⟩
    rcases hm with rfl | rfl <;> rfl

/-- No run of digits begins with a mark, so all of the digits of a text stand after its mark. -/
theorem dropMark_eq_iff :
    (dropMark cs).map lowerDigit = encodeChars bs ↔
      ∃ mark ∈ marks, cs.map lowerDigit = mark.toList ++ encodeChars bs := by
  rw [exists_marks_iff (P := fun mark => cs.map lowerDigit = mark ++ encodeChars bs)]
  show _ ↔ cs.map lowerDigit = encodeChars bs ∨ cs.map lowerDigit = '0' :: 'x' :: encodeChars bs ∨
    cs.map lowerDigit = '0' :: 'X' :: encodeChars bs
  rw [map_lowerDigit_eq_mark_iff (.inl rfl), map_lowerDigit_eq_mark_iff (.inr rfl)]
  unfold dropMark
  split
  · next ds =>
    constructor
    · intro h
      exact .inr (.inl ⟨ds, rfl, h⟩)
    · rintro (h | ⟨_, ⟨⟩, h⟩ | ⟨_, ⟨⟩, _⟩)
      · exact absurd h.symm (encodeChars_ne_mark (m := 'x') (.inl rfl))
      · exact h
  · next ds =>
    constructor
    · intro h
      exact .inr (.inr ⟨ds, rfl, h⟩)
    · rintro (h | ⟨_, ⟨⟩, _⟩ | ⟨_, ⟨⟩, h⟩)
      · exact absurd h.symm (encodeChars_ne_mark (m := 'X') (.inr rfl))
      · exact h
  · next hx hX =>
    constructor
    · exact .inl
    · rintro (h | ⟨ds, hcs, -⟩ | ⟨ds, hcs, -⟩)
      · exact h
      · exact absurd hcs (hx ds)
      · exact absurd hcs (hX ds)

end Marks

/-! ### Texts -/

theorem decode?_eq_some_iff {text : String} {bs : Bytes} :
    decode? text = some bs ↔ Spells text bs := by
  rw [Spells, encode, String.toList_ofList, ← dropMark_eq_iff, ← bytesOf_digits]
  rfl

/-- White space between two parts of a text does not count. -/
theorem bare_append_blanks {front blanks back : String}
    (hblanks : ∀ c ∈ blanks.toList, isBlank c) :
    bare (front ++ blanks ++ back) = bare (front ++ back) := by
  have hnone : blanks.toList.filter (fun c => !isBlank c) = [] := by
    rw [List.filter_eq_nil_iff]
    intro c hc
    simp [hblanks c hc]
  simp only [bare, String.toList_append, List.filter_append, hnone, List.append_nil]

/-- The spellings of some bytes are read as these bytes, and no other text is read at all. So the
bytes that are written are read back, a text is a spelling of no more than one byte string, and
white space may be put anywhere, be it into a mark or between the two digits of a byte. -/
theorem decode?_exact :
    (∀ text bs, decode? text = some bs ↔ Spells text bs) ∧
    (∀ text, decode? text = none ↔ ∀ bs, ¬Spells text bs) ∧
    (∀ bs, decode? (encode bs) = some bs) ∧
    (∀ text bs bs', Spells text bs → Spells text bs' → bs = bs') ∧
    ∀ front blanks back : String, (∀ c ∈ blanks.toList, isBlank c) →
      decode? (front ++ blanks ++ back) = decode? (front ++ back) := by
  refine ⟨fun _ _ => decode?_eq_some_iff, fun text => ?_, decode?_encode,
    fun text bs bs' h h' => ?_, fun front blanks back hblanks => ?_⟩
  · simp only [← decode?_eq_some_iff, Option.eq_none_iff_forall_ne_some, ne_eq]
  · rw [← decode?_eq_some_iff] at h h'
    exact Option.some.inj (h.symm.trans h')
  · ext bs
    simp only [decode?_eq_some_iff, Spells, bare_append_blanks hblanks]

/-- White space in the mark and between the two digits of a byte, and digits of either case. -/
theorem decode?_exact_pasted :
    Spells "0xa\nB" [0xab] ∧ (∀ bs, Spells "0xa\nB" bs → bs = [0xab]) ∧
      (∀ c ∈ " \t".toList, isBlank c) ∧ decode? ("0" ++ " \t" ++ "xa\nB") = some [0xab] := by
  obtain ⟨hspells, -, -, hunique, hblanks⟩ := decode?_exact
  have hpasted : Spells "0xa\nB" [0xab] := ⟨"0x", by decide, by decide⟩
  have hblank : ∀ c ∈ " \t".toList, isBlank c := List.all_eq_true.1 (by decide)
  refine ⟨hpasted, fun bs hbs => hunique _ _ _ hbs hpasted, hblank, ?_⟩
  exact (hblanks "0" " \t" "xa\nB" hblank).trans ((hspells _ _).2 hpasted)

end WireSchema.Hex
