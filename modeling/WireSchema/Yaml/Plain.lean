import WireSchema.Arithmetic
import WireSchema.Node
import WireSchema.Yaml

/-!
# What YAML scalars stand for

A quoted scalar is a string. A plain one may also be null, a truth value or a number. Integers may
be written in base ten, or after `0x`, `0o` and `0b` in base sixteen, eight and two. A plain run of
digits with a needless zero in front is a string.

A tag in front of a scalar decides on its kind, whether it is quoted or not: the standard tags of
null, truth values, integers and numbers demand the fitting spelling, any other makes it a string.
A private tag, which is a text that begins with an exclamation mark, has no meaning in a document
and is refused. The bytes of a tag are characters of the same number here.
-/

namespace WireSchema.Yaml

/-- The value of a digit of a base up to sixteen. -/
def digitValue? (base : Nat) (c : Char) : Option Nat :=
  let n := c.toNat
  let value :=
    if 0x30 ≤ n ∧ n ≤ 0x39 then n - 0x30
    else if 0x61 ≤ n ∧ n ≤ 0x66 then n - 0x61 + 10
    else if 0x41 ≤ n ∧ n ≤ 0x46 then n - 0x41 + 10
    else base
  if value < base then some value else none

/-- The number of a run of digits, which must not be empty. -/
def digitsValue? (base : Nat) : List Char → Option Nat
  | [] => none
  | digits => do
    return (← digits.mapM (digitValue? base)).foldl (fun n d => base * n + d) 0

/-- Whether the digits have a needless zero in front. -/
def hasLeadingZero : List Char → Bool
  | '0' :: c :: rest => (c :: rest).all Char.isDigit
  | _ => false

/-- The number of an integer without a sign, of which `limit` bounds the size. A mark that does not
lead to a number within the bound is no mark. -/
def magnitude? (limit : Nat) (text : List Char) : Option Nat :=
  let bounded (n : Option Nat) : Option Nat := n.filter (· < limit)
  let marked :=
    match text with
    | '0' :: 'x' :: rest => bounded (digitsValue? 16 rest)
    | '0' :: 'o' :: rest => bounded (digitsValue? 8 rest)
    | '0' :: 'b' :: rest => bounded (digitsValue? 2 rest)
    | _ => none
  match marked with
  | some n => some n
  | none => if hasLeadingZero text then none else bounded (digitsValue? 10 text)

/-- The text without a plus sign in front. -/
def dropPlus : List Char → List Char
  | '+' :: rest => rest
  | text => text

/-- The text without a sign in front. -/
def dropSign : List Char → List Char
  | '+' :: rest => rest
  | '-' :: rest => rest
  | text => text

/-- The node of an integer, for a text that spells one. There is none for an integer that does not
fit 64 bits; one that would not fit 128 bits either is no integer. -/
def integer? : List Char → Option (Option Node)
  | '-' :: rest =>
    (magnitude? (2 ^ 127 + 1) rest).map fun n =>
      if n = 0 then some .negativeZero else if n ≤ 2 ^ 63 then some .number else none
  | text =>
    (magnitude? (2 ^ 128) (dropPlus text)).map fun n =>
      if n < 2 ^ 64 then some (.uint (UInt64.ofNat n)) else none

/-- Whether the text spells a decimal number in the range of doubles. -/
def isDecimal (text : List Char) : Bool :=
  let text :=
    match text with
    | '+' :: '-' :: rest => '?' :: rest
    | '+' :: rest => rest
    | '-' :: rest => rest
    | text => text
  let whole := text.takeWhile Char.isDigit
  let afterWhole := text.dropWhile Char.isDigit
  let (fraction, afterFraction) :=
    match afterWhole with
    | '.' :: rest => (rest.takeWhile Char.isDigit, rest.dropWhile Char.isDigit)
    | rest => ([], rest)
  let (negative, power) :=
    match afterFraction with
    | [] => (false, some 0)
    | c :: rest =>
      if c = 'e' ∨ c = 'E' then
        match rest with
        | '-' :: rest => (true, digitsValue? 10 rest)
        | '+' :: rest => (false, digitsValue? 10 rest)
        | rest => (false, digitsValue? 10 rest)
      else (false, none)
  match digitsValue? 10 (whole ++ fraction), power with
  | some significand, some power =>
    let scale : Int := (if negative then -(power : Int) else power) - fraction.length
    if significand = 0 then true
    else if 400 < scale then false
    else if 0 ≤ scale then significand * 10 ^ scale.toNat < 2 ^ 1024 - 2 ^ 970
    else significand < (2 ^ 1024 - 2 ^ 970) * 10 ^ min (-scale).toNat 10000
  | _, _ => false

/-- The spellings of null, beside an empty plain scalar. -/
def nullWords : List String := ["~", "null", "Null", "NULL"]

/-- The spellings of the truth values. -/
def boolWords : List (String × Bool) :=
  [("true", true), ("True", true), ("TRUE", true),
    ("false", false), ("False", false), ("FALSE", false)]

/-- The spellings of numbers without digits. -/
def specialWords : List String :=
  [".inf", ".Inf", ".INF", "+.inf", "+.Inf", "+.INF", "-.inf", "-.Inf", "-.INF", ".nan", ".NaN",
    ".NAN"]

/-- Whether a text spells a number that need not be an integer. -/
def isNumber (text : String) : Bool := specialWords.contains text || isDecimal text.toList

/-- The node of a plain scalar without a tag. -/
def plainNode? (text : String) : Option Node :=
  let chars := text.toList
  if text = "" ∨ nullWords.contains text then some .null
  else
    match boolWords.lookup text, integer? chars with
    | some b, _ => some (.bool b)
    | none, some node => node
    | none, none =>
      if isNumber text && !hasLeadingZero (dropSign chars) then some .number
      else some (.string text)

/-- The node of a scalar without a tag. -/
def untaggedNode? (plain : Bool) (text : String) : Option Node :=
  if plain then plainNode? text else some (.string text)

/-- A standard tag. -/
def standardTag (name : String) : String := "tag:yaml.org,2002:" ++ name

/-- Whether a tag begins with an exclamation mark. -/
def isMarkedTag (tag : String) : Bool := tag.toList.head? == some '!'

/-- Whether a tag begins with an exclamation mark and its bytes are UTF-8. -/
def isPrivateTag (tag : String) : Bool :=
  isMarkedTag tag && (ByteArray.mk ⟨tag.toList.map fun c => c.toNat.toUInt8⟩).validateUTF8

/-- The node of a scalar with a tag that is not private. A tag that begins with an exclamation mark
then counts for nothing if the scalar is plain. -/
def taggedNode? (tag : String) (plain : Bool) (text : String) : Option Node :=
  if tag = standardTag "null" then if nullWords.contains text then some .null else none
  else if tag = standardTag "bool" then (boolWords.lookup text).map .bool
  else if tag = standardTag "int" then (integer? text.toList).join
  else if tag = standardTag "float" then if isNumber text then some .number else none
  else untaggedNode? (plain && isMarkedTag tag) text

/-- The node of a scalar. -/
def scalarNode? (tag : Option String) (plain : Bool) (text : String) : Option Node :=
  match tag with
  | some tag => if isPrivateTag tag then none else taggedNode? tag plain text
  | none => untaggedNode? plain text

end WireSchema.Yaml
