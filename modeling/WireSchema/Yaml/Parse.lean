import WireSchema.Yaml.Token

/-!
# Reading YAML text

The tokens of a text are read as one document: perhaps some directives, a node, and perhaps marks of
the end. A text without tokens has no document. A tag is expanded by the handles that the directives
declare; the handles of standard and of private tags are known without.

The functions on tokens take the number `room`, which bounds the length of the reading, and give the
tokens that are left.

* `Yaml.ofTokens?` is the value of a list of tokens.
* `Yaml.parse?` is the value of a text.
-/

namespace WireSchema.Yaml

/-! ### Tags and directives -/

/-- The handles that every document knows. -/
def knownHandles : List (String × String) := [("!", "!"), ("!!", standardTag "")]

/-- The whole of a tag, whose handle must be one of those of the document or known. -/
def Tag.expand? (handles : List (String × String)) (t : Tag) : Option String :=
  if t.handle = "" then some t.suffix
  else ((handles ++ knownHandles).lookup t.handle).map (· ++ t.suffix)

/-- The versions that directives give. -/
def versions (directives : List Directive) : List (Nat × Nat) :=
  directives.filterMap fun
    | .version major minor => some (major, minor)
    | .handle _ _ => none

/-- The handles that directives declare. -/
def declaredHandles (directives : List Directive) : List (String × String) :=
  directives.filterMap fun
    | .version _ _ => none
    | .handle name head => some (name, head)

/-- Whether directives may stand together: each handle is declared once, and one version is given at
most, which is a known one. -/
def areConsistent (directives : List Directive) : Bool :=
  [[], [(1, 1)], [(1, 2)]].contains (versions directives) &&
    ((declaredHandles directives).map (·.1)).Nodup

/-- Splits off the directives in front of a document. -/
def splitDirectives : List Token → List Directive × List Token
  | .directive d :: rest =>
    let (directives, rest) := splitDirectives rest
    (d :: directives, rest)
  | tokens => ([], tokens)

/-! ### Nodes -/

/-- Where a node stands. -/
inductive Site where
  /-- In a flow collection. -/
  | flow
  /-- In a block sequence, or outside of all collections. -/
  | block
  /-- In a block mapping, where the items of a sequence need not be further in. -/
  | entry
deriving DecidableEq

/-- Reads what stands in front of a node: its name and its tag in either order. -/
def properties? (handles : List (String × String)) : List Token → Option (Properties × List Token)
  | .anchor n :: .tag t :: rest => do return (⟨n, ← t.expand? handles⟩, rest)
  | .tag t :: .anchor n :: rest => do return (⟨n, ← t.expand? handles⟩, rest)
  | .anchor n :: rest => some (⟨n, none⟩, rest)
  | .tag t :: rest => do return (⟨none, ← t.expand? handles⟩, rest)
  | tokens => some (.absent, tokens)

/-- The properties of a scalar, where a lone exclamation mark says nothing. -/
def Properties.ofScalar (p : Properties) : Properties :=
  if p.tag = some "!" then { p with tag := none } else p

/-- Whether a token stands where the key or the value of an entry of a block mapping is missing. -/
def Token.endsEntry : Token → Bool
  | key => true
  | value => true
  | blockEnd => true
  | _ => false

/-- Whether a token stands where the item of a block sequence is missing. -/
def Token.endsItem : Token → Bool
  | item => true
  | blockEnd => true
  | _ => false

/-- Whether a token stands where the value of an entry in a flow collection is missing. -/
def Token.endsFlow : Token → Bool
  | comma => true
  | flowSequenceEnd => true
  | flowMappingEnd => true
  | _ => false

/-- Whether the first of some tokens has a property. -/
def startsWith (test : Token → Bool) (tokens : List Token) : Bool := tokens.head?.any test

mutual

/-- Reads a node. -/
def node (handles : List (String × String)) :
    (room : Nat) → Site → List Token → Option (Yaml × List Token)
  | 0, _, _ => none
  | _ + 1, _, .reference n :: rest => some (.reference n, rest)
  | room + 1, site, tokens => do
    let (p, tokens) ← properties? handles tokens
    match site, tokens with
    | .entry, .item :: _ => looseItems handles room p [] tokens
    | _, .scalar plain text :: rest => return (.scalar p.ofScalar plain text, rest)
    | _, .flowSequenceStart :: rest => flowItems handles room p [] rest
    | _, .flowMappingStart :: rest => flowEntries handles room p [] rest
    | .block, .sequenceStart :: rest => blockItems handles room p [] rest
    | .entry, .sequenceStart :: rest => blockItems handles room p [] rest
    | .block, .mappingStart :: rest => blockEntries handles room p [] rest
    | .entry, .mappingStart :: rest => blockEntries handles room p [] rest
    | _, tokens => if p = .absent then none else return (.scalar p true "", tokens)

/-- Reads a node, which is missing before a token with the given property. -/
def nodeUnless (handles : List (String × String)) :
    (room : Nat) → Site → (Token → Bool) → List Token → Option (Yaml × List Token)
  | 0, _, _, _ => none
  | room + 1, site, test, tokens =>
    if startsWith test tokens then some (missing, tokens) else node handles room site tokens

/-- Reads the items of a block sequence up to its end. -/
def blockItems (handles : List (String × String)) :
    (room : Nat) → Properties → List Yaml → List Token → Option (Yaml × List Token)
  | room + 1, p, done, .item :: tokens => do
    let (v, tokens) ← nodeUnless handles room .block Token.endsItem tokens
    blockItems handles room p (v :: done) tokens
  | _, p, done, .blockEnd :: rest => some (.sequence p done.reverse, rest)
  | _, _, _, _ => none

/-- Reads the items of a block sequence that is not further in than the mapping around it. -/
def looseItems (handles : List (String × String)) :
    (room : Nat) → Properties → List Yaml → List Token → Option (Yaml × List Token)
  | 0, _, _, _ => none
  | room + 1, p, done, .item :: tokens => do
    let test (t : Token) := t.endsItem || t.endsEntry
    let (v, tokens) ← nodeUnless handles room .block test tokens
    looseItems handles room p (v :: done) tokens
  | _ + 1, p, done, tokens => some (.sequence p done.reverse, tokens)

/-- Reads the entries of a block mapping up to its end. -/
def blockEntries (handles : List (String × String)) :
    (room : Nat) → Properties → List (Yaml × Yaml) → List Token → Option (Yaml × List Token)
  | room + 1, p, done, .key :: tokens => do
    let (key, tokens) ← nodeUnless handles room .entry Token.endsEntry tokens
    let (v, tokens) ←
      match tokens with
      | .value :: tokens => nodeUnless handles room .entry Token.endsEntry tokens
      | tokens => some (missing, tokens)
    blockEntries handles room p ((key, v) :: done) tokens
  | _, p, done, .blockEnd :: rest => some (.mapping p done.reverse, rest)
  | _, _, _, _ => none

/-- Reads the value of an entry in a flow collection, which may be missing with its colon. -/
def flowValue (handles : List (String × String)) :
    (room : Nat) → List Token → Option (Yaml × List Token)
  | room + 1, .value :: tokens => nodeUnless handles room .flow Token.endsFlow tokens
  | _, tokens => some (missing, tokens)

/-- Reads an item of a flow sequence. After the mark of a key it is a mapping of one entry. Where
the key is missing the token in its place is passed over. -/
def flowItem (handles : List (String × String)) :
    (room : Nat) → List Token → Option (Yaml × List Token)
  | 0, _ => none
  | room + 1, .key :: tokens => do
    let (key, tokens) ←
      match tokens with
      | .value :: tokens => some (missing, tokens)
      | .comma :: tokens => some (missing, tokens)
      | .flowSequenceEnd :: tokens => some (missing, tokens)
      | tokens => node handles room .flow tokens
    let (v, tokens) ← flowValue handles room tokens
    return (.mapping .absent [(key, v)], tokens)
  | room + 1, tokens => node handles room .flow tokens

/-- Reads the items of a flow sequence up to its end. -/
def flowItems (handles : List (String × String)) :
    (room : Nat) → Properties → List Yaml → List Token → Option (Yaml × List Token)
  | 0, _, _, _ => none
  | _ + 1, p, done, .flowSequenceEnd :: rest => some (.sequence p done.reverse, rest)
  | room + 1, p, done, tokens => do
    let (v, tokens) ← flowItem handles room tokens
    match tokens with
    | .comma :: tokens => flowItems handles room p (v :: done) tokens
    | .flowSequenceEnd :: rest => return (.sequence p (v :: done).reverse, rest)
    | _ => none

/-- Reads an entry of a flow mapping. Without the mark of a key it is a key without a value. -/
def flowEntry (handles : List (String × String)) :
    (room : Nat) → List Token → Option ((Yaml × Yaml) × List Token)
  | 0, _ => none
  | room + 1, .key :: tokens => do
    let test (t : Token) := t = .value || t = .comma || t = .flowMappingEnd
    let (key, tokens) ← nodeUnless handles room .flow test tokens
    let (v, tokens) ← flowValue handles room tokens
    return ((key, v), tokens)
  | room + 1, tokens => do
    let (key, tokens) ← node handles room .flow tokens
    return ((key, missing), tokens)

/-- Reads the entries of a flow mapping up to its end. -/
def flowEntries (handles : List (String × String)) :
    (room : Nat) → Properties → List (Yaml × Yaml) → List Token → Option (Yaml × List Token)
  | 0, _, _, _ => none
  | _ + 1, p, done, .flowMappingEnd :: rest => some (.mapping p done.reverse, rest)
  | room + 1, p, done, tokens => do
    let (entry, tokens) ← flowEntry handles room tokens
    match tokens with
    | .comma :: tokens => flowEntries handles room p (entry :: done) tokens
    | .flowMappingEnd :: rest => return (.mapping p (entry :: done).reverse, rest)
    | _ => none

end

/-! ### Documents -/

/-- Whether a token stands where the node of a document is missing. -/
def Token.endsDocument : Token → Bool
  | directive _ => true
  | documentStart => true
  | documentEnd => true
  | _ => false

/-- Reads the node of a document, which may be missing only after the mark of its start. -/
def documentNode? (tokens : List Token) : Option (Yaml × List Token) := do
  let room := 3 * tokens.length + 3
  if startsWith (fun t => t = .documentStart || t matches .directive _) tokens then
    let (directives, tokens) := splitDirectives tokens
    match tokens with
    | .documentStart :: tokens =>
      if !areConsistent directives then none
      else if tokens.isEmpty || startsWith Token.endsDocument tokens then return (missing, tokens)
      else node (declaredHandles directives) room .block tokens
    | _ => none
  else node [] room .block tokens

/-- The value of a list of tokens, which must be those of one document. No tokens have none. -/
def ofTokens? (tokens : List Token) : Option (Option Yaml) :=
  if tokens.isEmpty then some none
  else do
    let (v, tokens) ← documentNode? tokens
    if tokens.all (· = .documentEnd) then return some v else none

/-- The value of a text. A text without content has none. -/
def parse? (text : String) : Option (Option Yaml) := do
  let chars := text.toList
  if chars.all isPrintable then ofTokens? (← Token.scan? (unifyBreaks chars)) else none

end WireSchema.Yaml
