/-!
# Places in YAML text

A `Place` is a position in a YAML text and the characters that follow. The text is prepared by
`unifyBreaks`, after which lines end with a line feed or with one of the two Unicode separators.

* `isBlank`, `isBreak` and `atGap` are the classes of characters that separate tokens.
* `Place.span` reads a run of characters, `Place.endLine?` what may follow on a line.
* `Place.skip` is the place of the next token.
-/

namespace WireSchema.Yaml

/-! ### Characters -/

/-- Whether a character may stand in a text as it is. -/
def isPrintable (c : Char) : Bool :=
  let n := c.toNat
  c == '\t' || c == '\n' || c == '\r' || 0x20 ≤ n && n ≤ 0x7e || n == 0x85 ||
    0xa0 ≤ n && n ≤ 0xfffd || 0x10000 ≤ n

/-- The text in which carriage returns and next line characters are line feeds, and a carriage
return with its line feed is a single one. -/
def unifyBreaks : List Char → List Char
  | [] => []
  | '\r' :: '\n' :: rest => '\n' :: unifyBreaks rest
  | c :: rest => (if c = '\r' ∨ c = '\u0085' then '\n' else c) :: unifyBreaks rest

/-- Whether a character ends a line. -/
def isBreak (c : Char) : Bool := c == '\n' || c == '\u2028' || c == '\u2029'

/-- Whether a character is a space or a tab. -/
def isBlank (c : Char) : Bool := c == ' ' || c == '\t'

/-- Whether a text begins with a blank or a line break, or is at its end. -/
def atGap : List Char → Bool
  | [] => true
  | c :: _ => isBlank c || isBreak c

/-- Whether a character separates the parts of a flow collection. -/
def isFlowMark (c : Char) : Bool := c == ',' || c == '[' || c == ']' || c == '{' || c == '}'

/-! ### Places -/

/-- A position in a text. -/
structure Mark where
  line : Nat
  /-- The number of characters before it on its line. -/
  column : Nat
  /-- The number of bytes before it on its line. -/
  offset : Nat
deriving DecidableEq, Repr

/-- The position after a character. -/
def Mark.after (m : Mark) (c : Char) : Mark :=
  if isBreak c then ⟨m.line + 1, 0, 0⟩ else ⟨m.line, m.column + 1, m.offset + c.utf8Size⟩

/-- A position in a text, and the text that follows. -/
structure Place where
  mark : Mark
  rest : List Char
deriving DecidableEq, Repr

/-- The position at the start of a text. -/
def Mark.start : Mark := ⟨0, 0, 0⟩

/-- The longest run of characters with a property, and the place after it. -/
def spanFrom (test : Char → Bool) (m : Mark) : List Char → List Char × Place
  | [] => ([], ⟨m, []⟩)
  | c :: rest =>
    if test c then
      let (run, p) := spanFrom test (m.after c) rest
      (c :: run, p)
    else ([], ⟨m, c :: rest⟩)

namespace Place

/-- The longest run of characters with a property from a place, and the place after it. -/
def span (p : Place) (test : Char → Bool) : List Char × Place := spanFrom test p.mark p.rest

/-- The place after the next character. -/
def next (p : Place) : Place :=
  match p.rest with
  | [] => p
  | c :: rest => ⟨p.mark.after c, rest⟩

/-- The place after a number of characters. -/
def drop (p : Place) (n : Nat) : Place := n.repeat next p

/-- Whether nothing but blanks and a comment are left of the line; if so, the place of the next
line. -/
def endLine? (p : Place) : Option Place :=
  let p := (p.span isBlank).2
  let p :=
    match p.rest with
    | '#' :: _ => (p.span (!isBreak ·)).2
    | _ => p
  match p.rest with
  | [] => some p
  | c :: _ => if isBreak c then some p.next else none

/-- Whether the place is at the given mark, three characters long, of the start or the end of a
document. -/
def atMarker (p : Place) (marker : List Char) : Bool :=
  p.mark.column == 0 && p.rest.take 3 == marker && atGap (p.rest.drop 3)

/-- Whether the place is at the mark of the start or the end of a document. -/
def atDocument (p : Place) : Bool := p.atMarker ['-', '-', '-'] || p.atMarker ['.', '.', '.']

end Place

/-- The place of the next token, and whether a key may begin there. Outside of flow collections one
may begin on each new line; where one may, no tab is passed over. A byte order mark at the start of
a line counts as a blank. -/
def skipFrom (flow keyAllowed comment : Bool) (m : Mark) : List Char → Bool × Place
  | [] => (keyAllowed, ⟨m, []⟩)
  | c :: rest =>
    if isBreak c then skipFrom flow (keyAllowed || !flow) false (m.after c) rest
    else if comment || c == ' ' || c == '\t' && (flow || !keyAllowed) ||
        c == '\ufeff' && m.column == 0 then
      skipFrom flow keyAllowed comment (m.after c) rest
    else if c = '#' then skipFrom flow keyAllowed true (m.after c) rest
    else (keyAllowed, ⟨m, c :: rest⟩)

/-- The place of the next token from a place, and whether a key may begin there. -/
def Place.skip (flow keyAllowed : Bool) (p : Place) : Bool × Place :=
  skipFrom flow keyAllowed false p.mark p.rest

end WireSchema.Yaml
