import WireSchema.Yaml.Scalar
import WireSchema.Yaml.Block
import WireSchema.Yaml.Property

/-!
# YAML tokens

`Token.scan?` reads a YAML text as a list of tokens. Block collections have no brackets in the text;
their starts and ends follow from the columns in which their parts stand. A key of a mapping is
known as one only by the colon after it, and its token is then put in front of the key. Such a key
must end on the line on which it begins, within 1024 bytes.

The names of nodes are numbered on the way: a node with a name gets the number of distinct names
before it, and a reference is the number that its name had last.
-/

namespace WireSchema.Yaml

/-- A part of a YAML text. -/
inductive Token where
  | directive (content : Directive)
  | documentStart
  | documentEnd
  /-- The start of a block sequence. -/
  | sequenceStart
  /-- The start of a block mapping. -/
  | mappingStart
  /-- The end of a block sequence or mapping. -/
  | blockEnd
  | flowSequenceStart
  | flowSequenceEnd
  | flowMappingStart
  | flowMappingEnd
  /-- The dash in front of an item of a block sequence. -/
  | item
  /-- What separates the parts of a flow collection. -/
  | comma
  | key
  | value
  | reference (number : Nat)
  | anchor (number : Nat)
  | tag (content : Tag)
  | scalar (plain : Bool) (text : String)
deriving DecidableEq, Repr

/-- A token that turns out to be a key if a colon follows. -/
structure Candidate where
  /-- Whether nothing else can stand in its place. -/
  required : Bool
  /-- The number of tokens before it. -/
  position : Nat
  mark : Mark

/-- Whether a candidate is too far from a position to be a key there. -/
def Candidate.isStale (k : Candidate) (m : Mark) : Bool :=
  k.mark.line < m.line || k.mark.offset + 1024 < m.offset

/-- The candidate as it is at a later position, where it may be none any more. -/
def Candidate.refresh? (m : Mark) : Option Candidate → Option (Option Candidate)
  | some k => if !k.isStale m then some (some k) else if k.required then none else some none
  | none => some none

/-- A reading of a YAML text. -/
structure Scanner where
  place : Place
  /-- The tokens so far, the last one first. -/
  tokens : List Token
  /-- The number of tokens so far. -/
  count : Nat
  /-- The columns of the block collections around the place, the innermost first. -/
  indents : List Nat
  /-- Whether a key may begin at the place. -/
  keyAllowed : Bool
  /-- The candidate in the innermost flow collection, or outside of all. -/
  candidate : Option Candidate
  /-- The candidates outside of the flow collections around the place, the innermost first. -/
  outer : List (Option Candidate)
  /-- The names of nodes with their numbers. -/
  names : List (String × Nat)

namespace Scanner

/-- The start of a reading. -/
def start (text : List Char) : Scanner where
  place := ⟨.start, text⟩
  tokens := []
  count := 0
  indents := []
  keyAllowed := true
  candidate := none
  outer := []
  names := []

/-- Whether the place is in a flow collection. -/
def isFlow (s : Scanner) : Bool := !s.outer.isEmpty

/-- The first column to the right of that of the innermost block collection. -/
def least (s : Scanner) : Nat := s.indents.head?.elim 0 (· + 1)

/-! ### Tokens -/

/-- Adds a token in front of all tokens but the first `position` ones. -/
def insert (t : Token) (position : Nat) (s : Scanner) : Scanner :=
  let (later, earlier) := s.tokens.splitAt (s.count - position)
  { s with tokens := later ++ t :: earlier, count := s.count + 1 }

/-- Adds a token that is `length` characters long. -/
def add (t : Token) (length : Nat) (s : Scanner) : Scanner :=
  { s with tokens := t :: s.tokens, count := s.count + 1, place := s.place.drop length }

/-- Adds a token that was read up to a place. -/
def addUpTo (t : Token) (p : Place) (s : Scanner) : Scanner :=
  { s with tokens := t :: s.tokens, count := s.count + 1, place := p }

/-- Begins a block collection in a column, unless the innermost one is as far in. Its first token is
the one after the first `position` ones. -/
def openBlock (t : Token) (column position : Nat) (s : Scanner) : Scanner :=
  if !s.isFlow && s.least ≤ column then
    { s.insert t position with indents := column :: s.indents }
  else s

/-- Ends the block collections in the columns with a property. -/
def closeBlocks (test : Nat → Bool) (s : Scanner) : Scanner :=
  if s.isFlow then s
  else
    let closed := (s.indents.takeWhile test).length
    { s with
      tokens := List.replicate closed .blockEnd ++ s.tokens
      count := s.count + closed
      indents := s.indents.drop closed }

/-! ### Keys -/

/-- Lets a key begin at the place, or not. -/
def allowKey (b : Bool) (s : Scanner) : Scanner := { s with keyAllowed := b }

/-- Gives up the candidate. -/
def dropCandidate? (s : Scanner) : Option Scanner :=
  if s.candidate.any (·.required) then none else some { s with candidate := none }

/-- Makes the next token the candidate, where a key may begin. A key must stand in the column of the
innermost block collection. -/
def saveCandidate? (s : Scanner) : Option Scanner :=
  if s.keyAllowed then do
    let k : Candidate := {
      required := !s.isFlow && s.indents.head? == some s.place.mark.column
      position := s.count
      mark := s.place.mark }
    return { ← s.dropCandidate? with candidate := some k }
  else some s

/-- Goes on to the next token, and ends what the way to it ends. The candidates outside of a flow
collection need no look before the token after its end. -/
def advance? (s : Scanner) : Option Scanner := do
  let (keyAllowed, p) := s.place.skip s.isFlow s.keyAllowed
  let candidate ← Candidate.refresh? p.mark s.candidate
  return { s with place := p, keyAllowed, candidate }.closeBlocks (p.mark.column < ·)

/-! ### Reading a token -/

/-- Ends all block collections, as a directive and the mark of a document do. -/
def leaveDocument? (s : Scanner) : Option Scanner :=
  ((s.closeBlocks fun _ => true).allowKey false).dropCandidate?

/-- Reads a directive. -/
def directive? (s : Scanner) : Option Scanner := do
  let s ← s.leaveDocument?
  let (content, p) ← Yaml.directive? s.place
  return s.addUpTo (.directive content) p

/-- Reads the mark of the start or the end of a document. -/
def document? (t : Token) (s : Scanner) : Option Scanner := do
  return (← s.leaveDocument?).add t 3

/-- Reads the opening bracket of a flow collection. -/
def openFlow? (t : Token) (s : Scanner) : Option Scanner := do
  let s ← s.saveCandidate?
  return ({ s with candidate := none, outer := s.candidate :: s.outer }.allowKey true).add t 1

/-- Reads the closing bracket of a flow collection. -/
def closeFlow? (t : Token) (s : Scanner) : Option Scanner := do
  let s ← s.dropCandidate?
  let s :=
    match s.outer with
    | k :: outer => { s with candidate := k, outer }
    | [] => s
  return (s.allowKey false).add t 1

/-- Reads a comma. -/
def comma? (s : Scanner) : Option Scanner := do
  return ((← s.dropCandidate?).allowKey true).add .comma 1

/-- Begins a block collection at the place, where a key must be allowed. -/
def openHere? (t : Token) (s : Scanner) : Option Scanner :=
  if s.isFlow then some s
  else if s.keyAllowed then some (s.openBlock t s.place.mark.column s.count)
  else none

/-- Reads the dash of an item of a block sequence. -/
def item? (s : Scanner) : Option Scanner := do
  let s ← (← s.openHere? .sequenceStart).dropCandidate?
  return (s.allowKey true).add .item 1

/-- Reads the question mark in front of a key. -/
def key? (s : Scanner) : Option Scanner := do
  let s ← (← s.openHere? .mappingStart).dropCandidate?
  return (s.allowKey !s.isFlow).add .key 1

/-- Reads the colon in front of a value. The candidate, if there is one, becomes a key. -/
def value? (s : Scanner) : Option Scanner :=
  match s.candidate with
  | some k =>
    let s := { s.insert .key k.position with candidate := none }
    some (((s.openBlock .mappingStart k.mark.column k.position).allowKey false).add .value 1)
  | none => do
    return ((← s.openHere? .mappingStart).allowKey !s.isFlow).add .value 1

/-- Reads the name in front of a node. -/
def anchor? (s : Scanner) : Option Scanner := do
  let s := (← s.saveCandidate?).allowKey false
  let (name, p) ← name? s.place
  let number := s.names.length
  let s := { s with names := (name, number) :: s.names.filter (·.1 != name) }
  return s.addUpTo (.anchor number) p

/-- Reads a reference to a node. -/
def reference? (s : Scanner) : Option Scanner := do
  let s := (← s.saveCandidate?).allowKey false
  let (name, p) ← name? s.place
  return s.addUpTo (.reference (← s.names.lookup name)) p

/-- Reads a tag. -/
def tag? (s : Scanner) : Option Scanner := do
  let s := (← s.saveCandidate?).allowKey false
  let (content, p) ← Yaml.tag? s.place
  if endsTag s.isFlow p.rest then return s.addUpTo (.tag content) p else none

/-- Reads a block scalar. -/
def blockScalar? (s : Scanner) : Option Scanner := do
  let s := (← s.dropCandidate?).allowKey true
  let (text, p) ← Yaml.blockScalar? s.indents.head? s.place
  return s.addUpTo (.scalar false text) p

/-- Reads a quoted scalar. -/
def quoted? (read : Place → Option (String × Place)) (s : Scanner) : Option Scanner := do
  let s := (← s.saveCandidate?).allowKey false
  let (text, p) ← read s.place
  return s.addUpTo (.scalar false text) p

/-- Reads a plain scalar. Where it ends on a later line, a key may begin. -/
def plain? (s : Scanner) : Option Scanner := do
  let s ← s.saveCandidate?
  let (text, crossed, p) ← Yaml.plain? s.isFlow s.least s.place
  return (s.allowKey crossed).addUpTo (.scalar true text) p

/-- Reads the token that begins with the given character, before the given rest of the text. -/
def token? (c : Char) (rest : List Char) (s : Scanner) : Option Scanner :=
  if c = '%' ∧ s.place.mark.column = 0 then s.directive?
  else if c = '-' ∧ s.place.atMarker ['-', '-', '-'] then s.document? .documentStart
  else if c = '.' ∧ s.place.atMarker ['.', '.', '.'] then s.document? .documentEnd
  else if beginsPlain s.isFlow c rest then s.plain?
  else
    match c with
    | '[' => s.openFlow? .flowSequenceStart
    | '{' => s.openFlow? .flowMappingStart
    | ']' => s.closeFlow? .flowSequenceEnd
    | '}' => s.closeFlow? .flowMappingEnd
    | ',' => s.comma?
    | '-' => s.item?
    | '?' => s.key?
    | ':' => s.value?
    | '*' => s.reference?
    | '&' => s.anchor?
    | '!' => s.tag?
    | '\'' => s.quoted? singleQuoted?
    | '"' => s.quoted? doubleQuoted?
    | '|' => if s.isFlow then none else s.blockScalar?
    | '>' => if s.isFlow then none else s.blockScalar?
    | _ => none

/-- The tokens at the end of the text. -/
def finish? (s : Scanner) : Option (List Token) := do
  return (← s.leaveDocument?).tokens.reverse

/-- Reads the rest of the text. The number `room` bounds the tokens that the text has. -/
def run : (room : Nat) → Scanner → Option (List Token)
  | 0, _ => none
  | room + 1, s => do
    let s ← s.advance?
    match s.place.rest with
    | [] => s.finish?
    | c :: rest => run room (← s.token? c rest)

end Scanner

/-- The tokens of a text. -/
def Token.scan? (text : List Char) : Option (List Token) :=
  (Scanner.start text).run (text.length + 1)

end WireSchema.Yaml
