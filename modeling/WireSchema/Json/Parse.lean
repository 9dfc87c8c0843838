import WireSchema.Json.Token

/-!
# Reading JSON text

The tokens of a text are taken in one by one. The state, `Parse`, says what is due next and holds
the arrays and objects that are still open, the innermost first. No more than 127 of them may be
open at a time.

* `Json.parse?` is the value of a text.
-/

namespace WireSchema.Json

/-- An array or an object that is open, with what was read of it in reverse. -/
inductive Frame where
  | array (done : List Json)
  /-- The member `key` is being read. -/
  | object (done : List (String × Json)) (key : String)
deriving Inhabited

/-- What is due next. -/
inductive Parse where
  /-- A value. -/
  | value (frames : List Frame)
  /-- The first item of an array, or its end. -/
  | firstItem (frames : List Frame)
  /-- The first key of an object, or its end. -/
  | firstKey (frames : List Frame)
  /-- A further key of an object, after the given members. -/
  | key (done : List (String × Json)) (frames : List Frame)
  /-- The colon after a key. -/
  | colon (done : List (String × Json)) (key : String) (frames : List Frame)
  /-- What follows a value: a comma, or the end of what it is part of. -/
  | after (value : Json) (frames : List Frame)
deriving Inhabited

namespace Parse

/-- The largest number of arrays and objects that are open at a time. -/
def maxDepth : Nat := 127

/-- Takes in the first token of a value. -/
def beginValue (frames : List Frame) : Token → Option Parse
  | .openArray => if frames.length < maxDepth then some (.firstItem frames) else none
  | .openObject => if frames.length < maxDepth then some (.firstKey frames) else none
  | .text s => some (.after (.string s) frames)
  | .atom v => some (.after v frames)
  | _ => none

/-- Takes in a token. -/
def step : Parse → Token → Option Parse
  | value frames, t => beginValue frames t
  | firstItem frames, .closeArray => some (.after (.array []) frames)
  | firstItem frames, t => beginValue (.array [] :: frames) t
  | firstKey frames, .closeObject => some (.after (.object []) frames)
  | firstKey frames, .text s => some (.colon [] s frames)
  | key done frames, .text s => some (.colon done s frames)
  | colon done name frames, .colon => some (.value (.object done name :: frames))
  | after v (.array done :: frames), .comma => some (.value (.array (v :: done) :: frames))
  | after v (.array done :: frames), .closeArray =>
    some (.after (.array (v :: done).reverse) frames)
  | after v (.object done name :: frames), .comma => some (.key ((name, v) :: done) frames)
  | after v (.object done name :: frames), .closeObject =>
    some (.after (.object ((name, v) :: done).reverse) frames)
  | _, _ => none

/-- Takes in the given tokens. -/
def run : Parse → List Token → Option Parse
  | state, [] => some state
  | state, t :: rest =>
    match step state t with
    | none => none
    | some state => run state rest

@[simp] theorem run_nil (state : Parse) : run state [] = some state := rfl

/-- The value that was read, if nothing is open. -/
def result? : Parse → Option Json
  | after v [] => some v
  | _ => none

end Parse

/-- The value of a sequence of tokens. -/
def ofTokens? (tokens : List Token) : Option Json :=
  ((Parse.value []).run tokens).bind Parse.result?

/-- The value of a text. -/
def parse? (text : String) : Option Json := (Token.scan text.toList).bind ofTokens?

end WireSchema.Json
