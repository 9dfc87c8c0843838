import WireSchema.Yaml.Place
import WireSchema.Yaml.Plain

/-!
# Plain and quoted scalars in YAML text

A scalar is plain, or in double quotes with escapes, or in single quotes. It may run over several
lines. A line feed within it counts as a space together with the blanks around it, and each line
feed after that as itself; a Unicode separator is always kept (`Gap.text`).

The characters of a scalar are held in reverse while it is read.

* `plain?`, `doubleQuoted?` and `singleQuoted?` read a scalar and give the place after it.
-/

namespace WireSchema.Yaml

/-! ### Gaps -/

/-- The white space right before a place within a scalar, in reverse. -/
inductive Gap where
  /-- Blanks within a line. -/
  | blanks (held : List Char)
  /-- Line breaks, of which the first may be one that does not count. -/
  | breaks (first : Option Char) (others : List Char)
deriving DecidableEq, Repr

namespace Gap

/-- No white space. -/
def empty : Gap := blanks []

/-- Whether there is no white space. -/
def isEmpty : Gap → Bool
  | blanks held => held.isEmpty
  | breaks _ _ => false

/-- Whether the gap reaches over the end of a line. -/
def crosses : Gap → Bool
  | blanks _ => false
  | breaks _ _ => true

/-- The gap and a blank. -/
def addBlank (c : Char) : Gap → Gap
  | blanks held => blanks (c :: held)
  | breaks first others => breaks first others

/-- The gap and a line break. -/
def addBreak (c : Char) : Gap → Gap
  | blanks _ => breaks (some c) []
  | breaks first others => breaks first (c :: others)

/-- What a gap stands for, in reverse. -/
def text : Gap → List Char
  | blanks held => held
  | breaks (some '\n') [] => [' ']
  | breaks (some '\n') others => others
  | breaks (some c) others => others ++ [c]
  | breaks none others => others

end Gap

/-! ### Plain scalars -/

/-- The characters that no plain scalar begins with, whatever follows. -/
def indicators : List Char :=
  [',', '[', ']', '{', '}', '#', '&', '*', '!', '|', '>', '\'', '"', '%', '@', '\x60']

/-- Whether a plain scalar can begin with a character, given what follows it. -/
def beginsPlain (flow : Bool) (c : Char) (rest : List Char) : Bool :=
  if c = '-' then !atGap rest
  else if c = '?' ∨ c = ':' then !flow && !atGap rest
  else !isBlank c && !indicators.contains c

/-- Whether a plain scalar ends before a character, given what follows it. -/
def endsPlain (flow : Bool) (c : Char) (rest : List Char) : Bool :=
  c == ':' && atGap rest || flow && isFlowMark c

/-- Whether a line goes on with a comment, or is not as far in as the scalar. -/
def leavesPlain (flow : Bool) (least : Nat) (p : Place) : Bool :=
  !flow && p.mark.column < least || p.rest.head? == some '#' || p.atDocument

/-- Whether a colon in a flow collection stands before a mark, where it has no meaning. -/
def isStrayColon (flow : Bool) (c : Char) (rest : List Char) : Bool :=
  flow && c == ':' && rest.head?.any fun d => d == '?' || isFlowMark d

/-- Reads on in a plain scalar. -/
def plainFrom (flow : Bool) (least : Nat) (gap : Gap) (done : List Char) (m : Mark) :
    List Char → Option (String × Bool × Place)
  | [] => some (String.ofList done.reverse, gap.crosses, ⟨m, []⟩)
  | c :: rest =>
    if isBreak c then plainFrom flow least (gap.addBreak c) done (m.after c) rest
    else if isBlank c then
      if c = '\t' ∧ gap.crosses ∧ m.column < least then none
      else plainFrom flow least (gap.addBlank c) done (m.after c) rest
    else if endsPlain flow c rest || !gap.isEmpty && leavesPlain flow least ⟨m, c :: rest⟩ then
      some (String.ofList done.reverse, gap.crosses, ⟨m, c :: rest⟩)
    else if isStrayColon flow c rest then none
    else plainFrom flow least .empty (c :: (gap.text ++ done)) (m.after c) rest

/-- Reads a plain scalar, whose lines after the first are at least `least` columns in unless it is
in a flow collection. The result tells whether the place after it is on a later line. -/
def plain? (flow : Bool) (least : Nat) (p : Place) : Option (String × Bool × Place) :=
  plainFrom flow least .empty [] p.mark p.rest

/-! ### Quoted scalars -/

/-- The character that a letter after a backslash stands for. -/
def unescape? : Char → Option Char
  | '0' => some '\x00'
  | 'a' => some '\x07'
  | 'b' => some '\x08'
  | 't' => some '\t'
  | '\t' => some '\t'
  | 'n' => some '\n'
  | 'v' => some '\x0b'
  | 'f' => some '\x0c'
  | 'r' => some '\r'
  | 'e' => some '\x1b'
  | ' ' => some ' '
  | '"' => some '"'
  | '/' => some '/'
  | '\\' => some '\\'
  | 'N' => some '\u0085'
  | '_' => some '\u00a0'
  | 'L' => some '\u2028'
  | 'P' => some '\u2029'
  | _ => none

/-- The number of hexadecimal digits after the letter of an escape. -/
def escapeLength? : Char → Option Nat
  | 'x' => some 2
  | 'u' => some 4
  | 'U' => some 8
  | _ => none

/-- The character of a code point, which must not be a surrogate. -/
def codePoint? (n : Nat) : Option Char :=
  if n < 0xd800 ∨ 0xdfff < n ∧ n < 0x110000 then some (Char.ofNat n) else none

/-- Where a reading of a scalar in double quotes is. -/
inductive Quote where
  /-- After a gap, which may be empty. -/
  | text (gap : Gap)
  /-- After a backslash. -/
  | escape
  /-- Within an escape of which `left` digits are missing. -/
  | code (left value : Nat)

/-- Reads on in a scalar in double quotes. A line break after a backslash does not count. -/
def doubleFrom (state : Quote) (done : List Char) (m : Mark) : List Char → Option (String × Place)
  | [] => none
  | c :: rest =>
    match state with
    | .escape =>
      if isBreak c then doubleFrom (.text (.breaks none [])) done (m.after c) rest
      else
        match escapeLength? c, unescape? c with
        | some n, _ => doubleFrom (.code n 0) done (m.after c) rest
        | none, some d => doubleFrom (.text .empty) (d :: done) (m.after c) rest
        | none, none => none
    | .code left value =>
      match digitValue? 16 c with
      | none => none
      | some d =>
        let value := 16 * value + d
        if left ≤ 1 then
          match codePoint? value with
          | some d => doubleFrom (.text .empty) (d :: done) (m.after c) rest
          | none => none
        else doubleFrom (.code (left - 1) value) done (m.after c) rest
    | .text gap =>
      if isBreak c then doubleFrom (.text (gap.addBreak c)) done (m.after c) rest
      else if isBlank c then doubleFrom (.text (gap.addBlank c)) done (m.after c) rest
      else if (Place.mk m (c :: rest)).atDocument then none
      else
        let done := gap.text ++ done
        if c = '"' then some (String.ofList done.reverse, ⟨m.after c, rest⟩)
        else if c = '\\' then doubleFrom .escape done (m.after c) rest
        else doubleFrom (.text .empty) (c :: done) (m.after c) rest

/-- Reads a scalar in double quotes, from its opening quote. -/
def doubleQuoted? (p : Place) : Option (String × Place) :=
  doubleFrom (.text .empty) [] p.next.mark p.next.rest

/-- Reads on in a scalar in single quotes, in which two quotes stand for one. -/
def singleFrom (gap : Gap) (done : List Char) (m : Mark) : List Char → Option (String × Place)
  | [] => none
  | '\'' :: '\'' :: rest =>
    singleFrom .empty ('\'' :: (gap.text ++ done)) ((m.after '\'').after '\'') rest
  | c :: rest =>
    if isBreak c then singleFrom (gap.addBreak c) done (m.after c) rest
    else if isBlank c then singleFrom (gap.addBlank c) done (m.after c) rest
    else if (Place.mk m (c :: rest)).atDocument then none
    else if c = '\'' then some (String.ofList (gap.text ++ done).reverse, ⟨m.after c, rest⟩)
    else singleFrom .empty (c :: (gap.text ++ done)) (m.after c) rest

/-- Reads a scalar in single quotes, from its opening quote. -/
def singleQuoted? (p : Place) : Option (String × Place) :=
  singleFrom .empty [] p.next.mark p.next.rest

end WireSchema.Yaml
