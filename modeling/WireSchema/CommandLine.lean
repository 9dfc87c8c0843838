import WireSchema.Tool

/-!
# The command line

The program has three commands: `layout` describes a schema, `decode` shows the value of an
encoding, and `encode` encodes a value. What the arguments ask for is a `Request`, and what the
program then does is an `Outcome`: a text to print and an exit code.

Options are given by their long names, with the value in the next argument or after an equals sign,
and no option twice. An argument that begins with a dash is an option, unless it is the dash alone
or comes after `--`.
-/

namespace WireSchema

/-- What to do with a schema. -/
inductive Command where
  | layout
  | decode (limits : Limits) (type input : String)
  | encode (type input : String)
deriving DecidableEq, Repr

/-- What the arguments ask for. -/
inductive Request where
  | run (schemaPath : String) (command : Command)
  | version
  | help
  /-- There is no command. -/
  | nothing
  /-- The arguments are not understood. -/
  | wrong
deriving DecidableEq, Repr

/-- What the program does: the text that it prints, and its exit code. -/
structure Outcome where
  exitCode : Nat
  output : String
deriving DecidableEq, Repr

namespace CommandLine

/-- The arguments of a command. -/
structure Options where
  schema : Option String := none
  type : Option String := none
  maxItems : Option Nat := none
  maxBlobLength : Option Nat := none
  input : Option String := none

/-- The commands by their names. -/
inductive CommandName where
  | layout
  | decode
  | encode
deriving DecidableEq, Repr

/-- The command of the given name. -/
def CommandName.ofString? : String → Option CommandName
  | "layout" => some .layout
  | "decode" => some .decode
  | "encode" => some .encode
  | _ => none

/-- A number below 2^64 in decimal digits, perhaps with a plus sign. -/
def limit? (text : String) : Option Nat :=
  let digits :=
    match text.toList with
    | '+' :: rest => rest
    | chars => chars
  if digits.isEmpty || !digits.all Char.isDigit then none
  else
    let n := Json.decimalValue digits
    if n < 2 ^ 64 then some n else none

/-- A value for an option that has none yet. -/
def assign? {α : Type} (current : Option α) (value : Option α) : Option (Option α) :=
  match current, value with
  | none, some a => some (some a)
  | _, _ => none

/-- The options with the value of one more, if the command has it, the value is valid, and the
option was not given before. -/
def setOption? (command : CommandName) (name value : String) (o : Options) : Option Options :=
  match command, name with
  | _, "schema" => do
    if value.isEmpty then none
    return { o with schema := ← assign? o.schema (some value) }
  | .layout, _ => none
  | _, "type" => do return { o with type := ← assign? o.type (some value) }
  | _, "max-items" => do return { o with maxItems := ← assign? o.maxItems (limit? value) }
  | _, "max-blob-len" => do
    return { o with maxBlobLength := ← assign? o.maxBlobLength (limit? value) }
  | _, _ => none

/-- The options with an argument that is not an option. -/
def setInput? (command : CommandName) (value : String) (o : Options) : Option Options :=
  match command with
  | .layout => none
  | _ => do return { o with input := ← assign? o.input (some value) }

/-- The form of an argument. -/
inductive Argument where
  /-- Two dashes alone: what follows is no option. -/
  | separator
  /-- A long name, with a value after an equals sign if there is one. -/
  | long (name : String) (value : Option String)
  /-- A dash and some letters. -/
  | short (letters : List Char)
  | word (text : String)

/-- The form that an argument has. -/
def Argument.ofString (text : String) : Argument :=
  match text.toList with
  | ['-', '-'] => .separator
  | '-' :: '-' :: rest =>
    let name := String.ofList (rest.takeWhile (· ≠ '='))
    match rest.dropWhile (· ≠ '=') with
    | [] => .long name none
    | _ :: value => .long name (some (String.ofList value))
  | '-' :: c :: rest => .short (c :: rest)
  | _ => .word text

/-- Whether an argument can be the value of the option before it. -/
def isValue (text : String) : Bool :=
  match Argument.ofString text with
  | .word _ => true
  | _ => false

/-- What a command with the given options asks for. -/
def finish (command : CommandName) (o : Options) : Request :=
  let limits : Limits :=
    { maxItems := o.maxItems.getD (2 ^ 64 - 1)
      maxBlobLength := o.maxBlobLength.getD (2 ^ 64 - 1) }
  match command, o.schema, o.type, o.input with
  | .layout, some path, _, _ => .run path .layout
  | .decode, some path, some type, some input => .run path (.decode limits type input)
  | .encode, some path, some type, some input => .run path (.encode type input)
  | _, _, _, _ => .wrong

/-- The options with arguments that are no options. -/
def takeWords (command : CommandName) (o : Options) : List String → Request
  | [] => finish command o
  | text :: rest =>
    match setInput? command text o with
    | some o => takeWords command o rest
    | none => .wrong

/-- What the arguments of a command ask for. -/
def takeOptions (command : CommandName) (o : Options) : List String → Request
  | [] => finish command o
  | text :: rest =>
    match Argument.ofString text with
    | .separator => takeWords command o rest
    | .long "help" none => .help
    | .long name (some value) =>
      match setOption? command name value o with
      | some o => takeOptions command o rest
      | none => .wrong
    | .long name none =>
      match rest with
      -- the next argument is the value, unless it looks like an option itself
      | value :: rest =>
        if isValue value then
          match setOption? command name value o with
          | some o => takeOptions command o rest
          | none => .wrong
        else .wrong
      | [] => .wrong
    | .short ('h' :: _) => .help
    | .short _ => .wrong
    | .word text =>
      match setInput? command text o with
      | some o => takeOptions command o rest
      | none => .wrong

/-- What the letters after a dash in front of the command ask for, or whether the flag for more
output is given now. -/
def takeLetters (verbose : Bool) : List Char → Except Request Bool
  | [] => .ok verbose
  | 'v' :: rest => if verbose then .error .wrong else takeLetters true rest
  | 'V' :: _ => .error .version
  | 'h' :: _ => .error .help
  | _ => .error .wrong

/-- What the arguments of the program ask for. The flag for more output has no effect on what is
printed, but may only be given once. -/
def takeArguments (verbose : Bool) : List String → Request
  | [] => .nothing
  | text :: rest =>
    match Argument.ofString text with
    | .separator => if rest.isEmpty then .nothing else .wrong
    | .long "verbose" none => if verbose then .wrong else takeArguments true rest
    | .long "version" none => .version
    | .long "help" none => .help
    | .long _ _ => .wrong
    | .short letters =>
      match takeLetters verbose letters with
      | .ok verbose => takeArguments verbose rest
      | .error request => request
    | .word "help" =>
      match rest with
      | [] => .help
      | [name] =>
        if name == "help" || (CommandName.ofString? name).isSome then .help else .wrong
      | _ => .wrong
    | .word name =>
      match CommandName.ofString? name with
      | some command => takeOptions command {} rest
      | none => .wrong

end CommandLine

/-- What the arguments ask for. -/
def Request.ofArguments (arguments : List String) : Request :=
  CommandLine.takeArguments false arguments

/-- The text that a command yields for a schema. -/
def Command.output (schema : Schema) : Command → Except ToolError String
  | layout => .ok schema.describe
  | decode limits type input => schema.decodeText limits type input
  | encode type input => schema.encodeText type input

/-- The outcome of a command on the schema in a file. -/
def Command.outcome (command : Command) (path : String) (content : Option Bytes) : Outcome :=
  match do command.output (← Schema.load path content) with
  | .ok text => ⟨0, trimEnd text ++ "\n"⟩
  | .error (.codec (.abort _)) => ⟨101, ""⟩
  | .error _ => ⟨1, ""⟩

/-- The outcome of a request, where `file` is the content of the file of a path. -/
def Request.outcome (file : String → Option Bytes) : Request → Outcome
  | run path command => command.outcome path (file path)
  | version => ⟨0, "catbuffer 0.1.0\n"⟩
  | help => ⟨0, ""⟩
  | nothing => ⟨1, ""⟩
  | wrong => ⟨2, ""⟩

end WireSchema
