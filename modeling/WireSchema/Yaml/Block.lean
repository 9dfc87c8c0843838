import WireSchema.Yaml.Place
import WireSchema.Yaml.Plain

/-!
# Block scalars in YAML text

A block scalar is announced by a vertical bar, if its lines are kept, or by a greater-than sign, if
line feeds between them count as spaces. It takes the lines below that are indented by the same
number of columns or more. That number and what happens to the line breaks at the end are given by
the header, or left to the first line that is not empty and to `Chomping.clip`.

* `blockScalar?` reads a block scalar and gives the place after it.
-/

namespace WireSchema.Yaml

/-- Which of the line breaks at the end of a block scalar belong to it. -/
inductive Chomping where
  /-- None. -/
  | strip
  /-- The one that ends the last line. -/
  | clip
  /-- All. -/
  | keep
deriving DecidableEq, Repr

/-- The chomping that a sign in the header of a block scalar demands. -/
def chomping? : Char → Option Chomping
  | '-' => some .strip
  | '+' => some .keep
  | _ => none

/-- The header of a block scalar. -/
structure BlockHeader where
  /-- Whether line feeds count as spaces. -/
  folded : Bool
  chomping : Chomping
  /-- How much further in than its parent the scalar is, if that is given. -/
  increment : Option Nat
deriving DecidableEq, Repr

/-- The digit in the header of a block scalar, which must not be zero, and what follows it. A header
without a digit has none. -/
def increment? (p : Place) : Option (Option Nat × Place) :=
  match p.rest with
  | [] => some (none, p)
  | c :: _ =>
    match digitValue? 10 c with
    | none => some (none, p)
    | some 0 => none
    | some n => some (some n, p.next)

/-- The sign in the header of a block scalar, if there is one, and what follows it. -/
def chompingAt (p : Place) : Option Chomping × Place :=
  match p.rest.head?.bind chomping? with
  | some chomping => (some chomping, p.next)
  | none => (none, p)

/-- Reads the header of a block scalar with its line, from the character that announces it. The sign
and the digit may stand in either order. -/
def blockHeader? (p : Place) : Option (BlockHeader × Place) := do
  let folded := p.rest.head? == some '>'
  let (before, q) := chompingAt p.next
  let (increment, q) ← increment? q
  let (chomping, q) :=
    match before with
    | some chomping => (chomping, q)
    | none =>
      if increment.isSome then
        let (after, q) := chompingAt q
        (after.getD .clip, q)
      else (.clip, q)
  return (⟨folded, chomping, increment⟩, ← q.endLine?)

/-- What has been read of a block scalar, in reverse where it is text. -/
structure BlockText where
  /-- The columns that its lines are indented by, once that is known. -/
  indent : Option Nat
  /-- The deepest column in which one of its lines began so far. -/
  deepest : Nat
  done : List Char
  /-- The line break that ends the last line. -/
  ended : List Char
  /-- The line breaks of the empty lines after it. -/
  empties : List Char
  /-- Whether the last line began with a blank. -/
  blankBefore : Bool

namespace BlockText

/-- The text before the next line, which begins with a blank or not. A line feed between two lines
is folded, unless one of them begins with a blank. -/
def joined (t : BlockText) (folded blank : Bool) : List Char :=
  if folded && t.ended == ['\n'] && !t.blankBefore && !blank then
    if t.empties.isEmpty then ' ' :: t.done else t.empties ++ t.done
  else t.empties ++ (t.ended ++ t.done)

/-- The scalar, if no more lines follow. -/
def scalar (t : BlockText) : Chomping → String
  | .strip => String.ofList t.done.reverse
  | .clip => String.ofList (t.ended ++ t.done).reverse
  | .keep => String.ofList (t.empties ++ (t.ended ++ t.done)).reverse

end BlockText

/-- Reads on in a block scalar, within a line or, if `inside` is false, in front of one. Where the
header leaves it open, the first line that is not empty tells the number of columns, but an empty
line that is longer, or the least number of columns, outweighs it. -/
def blockFrom (header : BlockHeader) (least : Nat) (inside : Bool) (t : BlockText) (m : Mark) :
    List Char → Option (String × Place)
  | [] => some (t.scalar header.chomping, ⟨m, []⟩)
  | c :: rest =>
    if inside then
      if isBreak c then blockFrom header least false { t with ended := [c] } (m.after c) rest
      else blockFrom header least true { t with done := c :: t.done } (m.after c) rest
    else
      let indenting := t.indent.all (m.column < ·)
      let deepest := max t.deepest m.column
      if indenting && c == ' ' then blockFrom header least false t (m.after c) rest
      else if indenting && c == '\t' then none
      else if isBreak c then
        let t := { t with deepest, empties := c :: t.empties }
        blockFrom header least false t (m.after c) rest
      else
        let indent := t.indent.getD (max deepest least)
        if m.column = indent then
          let t := {
            indent := some indent
            deepest := deepest
            done := c :: t.joined header.folded (isBlank c)
            ended := []
            empties := []
            blankBefore := isBlank c }
          blockFrom header least true t (m.after c) rest
        else some (t.scalar header.chomping, ⟨m, c :: rest⟩)

/-- Reads a block scalar whose parent is indented by the given number of columns, if there is a
parent. -/
def blockScalar? (parent : Option Nat) (p : Place) : Option (String × Place) := do
  let (header, p) ← blockHeader? p
  let indent := header.increment.map (parent.getD 0 + ·)
  let least := max 1 (parent.elim 0 (· + 1))
  blockFrom header least false ⟨indent, 0, [], [], [], false⟩ p.mark p.rest

end WireSchema.Yaml
