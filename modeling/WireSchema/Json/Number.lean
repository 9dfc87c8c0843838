import WireSchema.Arithmetic
import WireSchema.Json

/-!
# Numbers in JSON text

`Number.ofChars?` recognises the spelling of a number, and `Number.toJson?` is its value: an
unsigned integer that fits a machine word is that integer, any other number is kept as it was
written, unless it is too large for a double.

How large a number is, is judged as a reader with a machine word for the digits judges it. It takes
in digits as long as they fit and drops the others, and the power of ten that remains is one of the
309 whole powers of ten below the largest double.
-/

namespace WireSchema.Json

/-- The parts of a number as it is written. -/
structure Number where
  negative : Bool
  /-- The digits before the point. -/
  whole : List Char
  /-- The digits after the point. -/
  fraction : Option (List Char)
  /-- The digits of the power of ten, and whether it is negative. -/
  exponent : Option (Bool × List Char)
deriving DecidableEq, Repr

/-- The value of a decimal digit. -/
def digitValue (c : Char) : Nat := c.toNat - 0x30

/-- The value of decimal digits, highest first. -/
def decimalValue (digits : List Char) : Nat :=
  digits.foldl (fun n c => 10 * n + digitValue c) 0

namespace Number

/-- The digits at the front, of which there must be one, and what follows them. -/
def digits? (text : List Char) : Option (List Char × List Char) :=
  match text.takeWhile Char.isDigit with
  | [] => none
  | ds => some (ds, text.dropWhile Char.isDigit)

/-- The digits before the point, which do not begin with a zero that could be left out. -/
def whole? (text : List Char) : Option (List Char × List Char) :=
  match digits? text with
  | some ('0' :: _ :: _, _) => none
  | other => other

/-- The digits after the point, if there is a point. -/
def fraction? : List Char → Option (Option (List Char) × List Char)
  | '.' :: rest => (digits? rest).map fun (ds, rest) => (some ds, rest)
  | rest => some (none, rest)

/-- The power of ten, if there is one. -/
def exponent? : List Char → Option (Option (Bool × List Char) × List Char)
  | [] => some (none, [])
  | c :: rest =>
    if c = 'e' ∨ c = 'E' then
      match rest with
      | '-' :: rest => (digits? rest).map fun (ds, rest) => (some (true, ds), rest)
      | '+' :: rest => (digits? rest).map fun (ds, rest) => (some (false, ds), rest)
      | rest => (digits? rest).map fun (ds, rest) => (some (false, ds), rest)
    else some (none, c :: rest)

/-- The parts of a text that is a number throughout. -/
def ofChars? (text : List Char) : Option Number := do
  let (negative, text) :=
    match text with
    | '-' :: rest => (true, rest)
    | text => (false, text)
  let (whole, text) ← whole? text
  let (fraction, text) ← fraction? text
  let (exponent, text) ← exponent? text
  match text with
  | [] => return ⟨negative, whole, fraction, exponent⟩
  | _ => none

/-! ### The largest double -/

/-- The number rounded to 53 binary digits, half to even. -/
def roundDouble (n : Nat) : Nat :=
  if n < 2 ^ 53 then n
  else
    let unit := 2 ^ (n.log2 - 52)
    let below := n / unit
    let rest := n % unit
    if unit < 2 * rest ∨ (2 * rest = unit ∧ below % 2 = 1) then (below + 1) * unit
    else below * unit

/-- Takes in the digits before the point: the number that they make as far as it fits a word, and
how many digits are dropped after it. -/
def takeWhole (significand dropped : Nat) : List Char → Nat × Nat
  | [] => (significand, dropped)
  | c :: rest =>
    if dropped = 0 ∧ 10 * significand + digitValue c < 2 ^ 64 then
      takeWhole (10 * significand + digitValue c) dropped rest
    else takeWhole significand (dropped + 1) rest

/-- Takes in the digits after the point up to the first that does not fit a word, and counts
them. -/
def takeFraction (significand taken : Nat) : List Char → Nat × Nat
  | [] => (significand, taken)
  | c :: rest =>
    if 10 * significand + digitValue c < 2 ^ 64 then
      takeFraction (10 * significand + digitValue c) (taken + 1) rest
    else (significand, taken)

/-- Whether the number is within the range of doubles. -/
def isFinite (n : Number) : Bool :=
  let (significand, dropped) := takeWhole 0 0 n.whole
  let (significand, taken) := takeFraction significand 0 (n.fraction.getD [])
  let power : Int :=
    match n.exponent with
    | none => 0
    | some (false, ds) => decimalValue ds
    | some (true, ds) => -decimalValue ds
  -- the number is `significand * 10 ^ scale`
  let scale : Int := (dropped : Int) - taken + power
  if significand = 0 ∨ scale < 0 then true
  else if 308 < scale then false
  else roundDouble significand * roundDouble (10 ^ scale.toNat) < 2 ^ 1024 - 2 ^ 970

/-- The value of a number that is written as `text`. -/
def toJson? (n : Number) (text : List Char) : Option Json :=
  if !n.negative ∧ n.fraction = none ∧ n.exponent = none ∧ decimalValue n.whole < 2 ^ 64 then
    some (.uint (UInt64.ofNat (decimalValue n.whole)))
  else if n.isFinite then some (.number (String.ofList text))
  else none

end Number

end WireSchema.Json
