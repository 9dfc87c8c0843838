import WireSchema.Json.Number
import WireSchema.Text.Hex

/-!
# The tokens of JSON text

A JSON text is a sequence of tokens with white space between them. `Token.scan` splits a text into
its tokens, one character at a time: what has been read of the token at hand is the state, `Scan`.
`Token.text` spells a token.

Strings are spelled with the shortest escapes, and every other character stands for itself. When
read, an escape may name any character, those beyond the basic plane by a pair of surrogates; a
surrogate that stands alone is refused, and so is a control character that is not escaped.
-/

namespace WireSchema.Json

/-- A token of JSON text. -/
inductive Token where
  | openArray
  | closeArray
  | openObject
  | closeObject
  | comma
  | colon
  | text (s : String)
  /-- A number or a literal name. -/
  | atom (value : Json)
deriving Inhabited

/-- What has been read of a token. -/
inductive Scan where
  /-- Nothing: the next character may begin a token. -/
  | gap
  /-- The characters of a number or a literal name, in reverse. -/
  | word (done : List Char)
  /-- The characters of a string, in reverse. -/
  | text (done : List Char)
  /-- A string, and the backslash after it. -/
  | escape (done : List Char)
  /-- A string, and `count` digits of an escaped code unit after it, with their value. The code unit
  comes after the high surrogate `high`, if there is one. -/
  | code (done : List Char) (high : Option Nat) (count value : Nat)
  /-- A string, and a high surrogate that has to be followed by another escape. -/
  | paired (done : List Char) (high : Nat)
  /-- A string, and a high surrogate with the backslash after it. -/
  | pairedEscape (done : List Char) (high : Nat)
deriving DecidableEq, Repr

namespace Token

/-- Whether a character can be part of a number or a literal name. -/
def isWordChar (c : Char) : Bool :=
  c.isAlphanum || c == '-' || c == '+' || c == '.'

/-- The number or literal name that a word spells. -/
def ofWord? (word : List Char) : Option Token :=
  if word = ['n', 'u', 'l', 'l'] then some (.atom .null)
  else if word = ['t', 'r', 'u', 'e'] then some (.atom (.bool true))
  else if word = ['f', 'a', 'l', 's', 'e'] then some (.atom (.bool false))
  else do return .atom (← (← Number.ofChars? word).toJson? word)

/-- The character that a letter after a backslash stands for. -/
def unescape? : Char → Option Char
  | '"' => some '"'
  | '\\' => some '\\'
  | '/' => some '/'
  | 'b' => some '\x08'
  | 'f' => some '\x0c'
  | 'n' => some '\n'
  | 'r' => some '\r'
  | 't' => some '\t'
  | _ => none

/-- What follows from a code unit that is spelled out in full. -/
def codeUnit? (done : List Char) (high : Option Nat) (unit : Nat) : Option Scan :=
  match high with
  | none =>
    if 0xd800 ≤ unit ∧ unit ≤ 0xdbff then some (.paired done unit)
    else if 0xdc00 ≤ unit ∧ unit ≤ 0xdfff then none
    else some (.text (Char.ofNat unit :: done))
  | some high =>
    if 0xdc00 ≤ unit ∧ unit ≤ 0xdfff then
      some (.text (Char.ofNat (0x10000 + 0x400 * (high - 0xd800) + (unit - 0xdc00)) :: done))
    else none

/-- Takes in a character that may begin a token, after the tokens held in reverse. -/
def begin (c : Char) (tokens : List Token) : Option (Scan × List Token) :=
  match c with
  | ' ' | '\t' | '\n' | '\r' => some (.gap, tokens)
  | '[' => some (.gap, .openArray :: tokens)
  | ']' => some (.gap, .closeArray :: tokens)
  | '{' => some (.gap, .openObject :: tokens)
  | '}' => some (.gap, .closeObject :: tokens)
  | ',' => some (.gap, .comma :: tokens)
  | ':' => some (.gap, .colon :: tokens)
  | '"' => some (.text [], tokens)
  | c => if isWordChar c then some (.word [c], tokens) else none

/-- Takes in one character. -/
def next (c : Char) (tokens : List Token) : Scan → Option (Scan × List Token)
  | .gap => begin c tokens
  | .word done =>
    if isWordChar c then some (.word (c :: done), tokens)
    else do begin c ((← ofWord? done.reverse) :: tokens)
  | .text done =>
    if c = '"' then some (.gap, .text (String.ofList done.reverse) :: tokens)
    else if c = '\\' then some (.escape done, tokens)
    else if c.toNat < 0x20 then none
    else some (.text (c :: done), tokens)
  | .escape done =>
    if c = 'u' then some (.code done none 0 0, tokens)
    else (unescape? c).map fun c => (.text (c :: done), tokens)
  | .code done high count value => do
    let value := 16 * value + (← Hex.digitValue? c)
    if count < 3 then return (.code done high (count + 1) value, tokens)
    else return (← codeUnit? done high value, tokens)
  | .paired done high => if c = '\\' then some (.pairedEscape done high, tokens) else none
  | .pairedEscape done high =>
    if c = 'u' then some (.code done (some high) 0 0, tokens) else none

/-- Takes in the end of the text. -/
def finish (tokens : List Token) : Scan → Option (List Token)
  | .gap => some tokens.reverse
  | .word done => do return ((← ofWord? done.reverse) :: tokens).reverse
  | _ => none

/-- The tokens of a text, after those held in reverse and the part of a token that was read. -/
def scanFrom (state : Scan) (tokens : List Token) : List Char → Option (List Token)
  | [] => finish tokens state
  | c :: rest =>
    match next c tokens state with
    | none => none
    | some (state, tokens) => scanFrom state tokens rest

/-- The tokens of a text. -/
def scan (text : List Char) : Option (List Token) := scanFrom .gap [] text

/-! ### Spelling -/

/-- The spelling of a character in a string. -/
def escape (c : Char) : List Char :=
  if c = '"' then ['\\', '"']
  else if c = '\\' then ['\\', '\\']
  else if c = '\x08' then ['\\', 'b']
  else if c = '\x0c' then ['\\', 'f']
  else if c = '\n' then ['\\', 'n']
  else if c = '\r' then ['\\', 'r']
  else if c = '\t' then ['\\', 't']
  else if c.toNat < 0x20 then
    ['\\', 'u', '0', '0', Hex.digit (c.toNat / 16), Hex.digit (c.toNat % 16)]
  else [c]

/-- The spelling of a string. -/
def quote (s : String) : List Char := '"' :: (s.toList.flatMap escape ++ ['"'])

/-- The spelling of an atom. -/
def atomChars : Json → List Char
  | .null => ['n', 'u', 'l', 'l']
  | .bool true => ['t', 'r', 'u', 'e']
  | .bool false => ['f', 'a', 'l', 's', 'e']
  | .uint n => Nat.toDigits 10 n.toNat
  | .number spelling => spelling.toList
  | _ => []

/-- The spelling of a token. -/
def chars : Token → List Char
  | openArray => ['[']
  | closeArray => [']']
  | openObject => ['{']
  | closeObject => ['}']
  | comma => [',']
  | colon => [':']
  | text s => quote s
  | atom value => atomChars value

end Token

end WireSchema.Json
