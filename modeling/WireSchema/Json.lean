/-!
# JSON values

`Json` is a JSON text without its spelling. The members of an object are kept as they were written,
in order and with repetitions; of the members with one name, the last counts (`Json.member?`).

Of all numbers, only the integers that fit a machine word have a value here. Every other number is
kept as it was written.
-/

namespace WireSchema

/-- A JSON value. -/
inductive Json where
  | null
  | bool (b : Bool)
  | uint (n : UInt64)
  /-- A number that is not an unsigned machine word, as it was written. -/
  | number (text : String)
  | string (text : String)
  | array (items : List Json)
  | object (members : List (String × Json))
deriving Inhabited

namespace Json

/-- The value of the last member of the given name. -/
def member? (members : List (String × Json)) (name : String) : Option Json :=
  members.reverse.lookup name

/-- The number, if the value is one that fits a machine word. -/
def asUInt? : Json → Option UInt64
  | uint n => some n
  | _ => none

/-- The text, if the value is a string. -/
def asString? : Json → Option String
  | string text => some text
  | _ => none

end Json

end WireSchema
