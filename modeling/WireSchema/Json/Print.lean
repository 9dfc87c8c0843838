import WireSchema.Json.Token

/-!
# Writing JSON text

* `Json.tokens` is a value as a sequence of tokens; `Json.compact` writes them without a gap.
* `Json.pretty` gives every item and every member a line of its own, two spaces further in than what
  it is part of; an empty array or object stays on one line.
-/

namespace WireSchema.Json

mutual

/-- The tokens of a value. -/
def tokens : Json → List Token
  | array [] => [.openArray, .closeArray]
  | array (v :: rest) => .openArray :: (tokens v ++ itemTokens rest)
  | object [] => [.openObject, .closeObject]
  | object ((name, v) :: rest) =>
    .openObject :: .text name :: .colon :: (tokens v ++ memberTokens rest)
  | string s => [.text s]
  | null => [.atom null]
  | bool b => [.atom (bool b)]
  | uint n => [.atom (uint n)]
  | number text => [.atom (number text)]

/-- The tokens after an item of an array, up to its end. -/
def itemTokens : List Json → List Token
  | [] => [.closeArray]
  | v :: rest => .comma :: (tokens v ++ itemTokens rest)

/-- The tokens after a member of an object, up to its end. -/
def memberTokens : List (String × Json) → List Token
  | [] => [.closeObject]
  | (name, v) :: rest => .comma :: .text name :: .colon :: (tokens v ++ memberTokens rest)

end

/-- The text of a value without white space. -/
def compact (v : Json) : String := String.ofList (v.tokens.flatMap Token.chars)

/-- The start of a line at the given depth. -/
def newLine (depth : Nat) : List Char := '\n' :: List.replicate (2 * depth) ' '

mutual

/-- The text of a value on lines of their own, `depth` levels in. -/
def prettyChars (depth : Nat) : Json → List Char
  | array [] => ['[', ']']
  | array (v :: rest) =>
    '[' :: (newLine (depth + 1) ++ (prettyChars (depth + 1) v ++ prettyItems depth rest))
  | object [] => ['{', '}']
  | object ((name, v) :: rest) =>
    '{' :: (newLine (depth + 1) ++ (Token.quote name ++
      (':' :: ' ' :: (prettyChars (depth + 1) v ++ prettyMembers depth rest))))
  | string s => Token.quote s
  | null => Token.atomChars null
  | bool b => Token.atomChars (bool b)
  | uint n => Token.atomChars (uint n)
  | number text => Token.atomChars (number text)

/-- The text after an item of an array, up to its end. -/
def prettyItems (depth : Nat) : List Json → List Char
  | [] => newLine depth ++ [']']
  | v :: rest =>
    ',' :: (newLine (depth + 1) ++ (prettyChars (depth + 1) v ++ prettyItems depth rest))

/-- The text after a member of an object, up to its end. -/
def prettyMembers (depth : Nat) : List (String × Json) → List Char
  | [] => newLine depth ++ ['}']
  | (name, v) :: rest =>
    ',' :: (newLine (depth + 1) ++ (Token.quote name ++
      (':' :: ' ' :: (prettyChars (depth + 1) v ++ prettyMembers depth rest))))

end

/-- The text of a value with a line for every item and member. -/
def pretty (v : Json) : String := String.ofList (v.prettyChars 0)

end WireSchema.Json
