import WireSchema.Yaml.Place
import WireSchema.Yaml.Plain

/-!
# Names, tags and directives in YAML text

In front of a node may stand its name, after an ampersand, and its tag, after an exclamation mark.
A tag has a handle, which stands for the beginning of the tag, and the rest of the tag. The handles
of a document are declared by the directives in front of it.

Bytes of a tag that are written in hexadecimal after a percent sign are kept as characters of the
same number; together they must have the form of UTF-8.

* `name?`, `tag?` and `directive?` read these parts and give the place after them.
-/

namespace WireSchema.Yaml

/-- Whether a character may stand in a name. -/
def isNameChar (c : Char) : Bool := c.isAlphanum || c == '_' || c == '-'

/-- Whether a name ends before a text. -/
def endsName : List Char → Bool
  | [] => true
  | c :: _ => isBlank c || isBreak c || ['?', ':', ',', ']', '}', '%', '@', '\x60'].contains c

/-- Reads the name of a node, from the character that announces it. -/
def name? (p : Place) : Option (String × Place) :=
  let (name, p) := p.next.span isNameChar
  if name.isEmpty || !endsName p.rest then none else some (String.ofList name, p)

/-! ### Tags -/

/-- The characters of a tag beside those of names. -/
def tagMarks : List Char :=
  [';', '/', '?', ':', '@', '&', '=', '+', '$', '.', '!', '~', '*', '\'', '(', ')']

/-- Whether a character may stand in a tag. A tag in angle brackets may contain marks of flow
collections. -/
def isTagChar (bracketed : Bool) (c : Char) : Bool :=
  isNameChar c || tagMarks.contains c || bracketed && (c == ',' || c == '[' || c == ']')

/-- How many bytes of a character follow a byte, if it may stand where `left` bytes are missing. -/
def bytesLeft? (left byte : Nat) : Option Nat :=
  match left with
  | 0 =>
    if byte < 0x80 then some 0
    else if byte < 0xc0 then none
    else if byte < 0xe0 then some 1
    else if byte < 0xf0 then some 2
    else if byte < 0xf8 then some 3
    else none
  | left + 1 => if 0x80 ≤ byte ∧ byte < 0xc0 then some left else none

/-- Reads the longest run of characters of a tag, where `left` bytes of a character are missing. -/
def tagCharsFrom (bracketed : Bool) (left : Nat) (done : List Char) (m : Mark) :
    List Char → Option (List Char × Place)
  | [] => if left = 0 then some (done.reverse, ⟨m, []⟩) else none
  | '%' :: a :: b :: rest => do
    let byte := 16 * (← digitValue? 16 a) + (← digitValue? 16 b)
    let left ← bytesLeft? left byte
    let m := ((m.after '%').after a).after b
    tagCharsFrom bracketed left (Char.ofNat byte :: done) m rest
  | c :: rest =>
    if left ≠ 0 ∨ c = '%' then none
    else if isTagChar bracketed c then
      tagCharsFrom bracketed 0 (c :: done) (m.after c) rest
    else some (done.reverse, ⟨m, c :: rest⟩)

/-- Reads the longest run of characters of a tag. -/
def tagChars? (bracketed : Bool) (p : Place) : Option (List Char × Place) :=
  tagCharsFrom bracketed 0 [] p.mark p.rest

/-- The text of a part of a tag, which ends at its first null character. -/
def tagText (chars : List Char) : String := String.ofList (chars.takeWhile (· != '\x00'))

/-- Reads a part of a tag that must not be empty. -/
def tagPart? (bracketed : Bool) (p : Place) : Option (String × Place) := do
  let (chars, p) ← tagChars? bracketed p
  if chars.isEmpty then none else return (tagText chars, p)

/-- The handle and the rest of a tag. -/
structure Tag where
  /-- Empty if the rest is all of the tag. -/
  handle : String
  suffix : String
deriving DecidableEq, Repr

/-- Reads a tag, from its exclamation mark. A lone exclamation mark is a tag by itself. -/
def tag? (p : Place) : Option (Tag × Place) := do
  let (word, q) := p.next.span isNameChar
  match word, q.rest with
  | [], '<' :: _ =>
    let (suffix, q) ← tagPart? true q.next
    if q.rest.head? = some '>' then return (⟨"", suffix⟩, q.next) else none
  | word, '!' :: _ =>
    let (suffix, q) ← tagPart? false q.next
    return (⟨String.ofList ('!' :: word ++ ['!']), suffix⟩, q)
  | word, _ =>
    let (more, q) ← tagChars? false q
    let suffix := tagText (word ++ more)
    return (if suffix = "" then ⟨"", "!"⟩ else ⟨"!", suffix⟩, q)

/-- Whether a tag may end before a text. -/
def endsTag (flow : Bool) (text : List Char) : Bool :=
  atGap text || flow && text.head? == some ','

/-! ### Directives -/

/-- An instruction in front of a document. -/
inductive Directive where
  /-- The version of the notation. -/
  | version (major minor : Nat)
  /-- A handle, and the beginning of a tag that it stands for. -/
  | handle (name head : String)
deriving DecidableEq, Repr

/-- Reads a number of at most nine digits. -/
def versionNumber? (p : Place) : Option (Nat × Place) := do
  let (digits, p) := p.span Char.isDigit
  if digits.length ≤ 9 then return (← digitsValue? 10 digits, p) else none

/-- Reads the number of a version: two numbers with a point between them. -/
def version? (p : Place) : Option (Directive × Place) := do
  let (major, p) ← versionNumber? p
  if p.rest.head? ≠ some '.' then none
  let (minor, p) ← versionNumber? p.next
  return (.version major minor, p)

/-- Reads a handle and what it stands for. -/
def handle? (p : Place) : Option (Directive × Place) := do
  if p.rest.head? ≠ some '!' then none
  let (word, p) := p.next.span isNameChar
  let (name, p) ←
    match word, p.rest with
    | word, '!' :: _ => some ('!' :: word ++ ['!'], p.next)
    | [], _ => some (['!'], p)
    | _, _ => none
  let (blanks, p) := p.span isBlank
  if blanks.isEmpty then none
  let (head, p) ← tagPart? true p
  if atGap p.rest then return (.handle (String.ofList name) head, p) else none

/-- Reads a directive with its line, from its percent sign. -/
def directive? (p : Place) : Option (Directive × Place) := do
  let (name, p) := p.next.span isNameChar
  if !atGap p.rest then none
  let p := (p.span isBlank).2
  let (directive, p) ←
    if name = "YAML".toList then version? p
    else if name = "TAG".toList then handle? p
    else none
  return (directive, ← p.endLine?)

end WireSchema.Yaml
