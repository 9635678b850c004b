import ApiTypes.Binary64.Text
import ApiTypes.Command.Load

/-!
The command line. Arguments are taken from left to right and the first mistake, or the first call
for help, settles the answer. An option takes its value from after an equals sign or from the next
argument, which may not look like an option itself. Two dashes end the options.
-/

namespace ApiTypes

/-- What the command is to do. -/
structure Arguments where
  /-- The name of the source. -/
  input : String := Source.standardInputName
  /-- The file to write to in place of the standard output. -/
  output : Option String := none
  /-- The style configuration for the formatter. -/
  styleConfig : Option String := none
  /-- Whether the document is a bare map of named schemas. -/
  rawSchema : Bool := false
  /-- The dialect of a bare map, by number. -/
  version : Option Nat := none
  deriving DecidableEq, Repr

/-- A command line that was understood. -/
inductive Request
  | help
  | generate (arguments : Arguments)
  deriving DecidableEq, Repr

inductive UsageError
  | unexpectedArgument (argument : String)
  | repeatedOption (name : String)
  | missingValue (name : String)
  /-- A value for an option that takes none. -/
  | unwantedValue (name value : String)
  | invalidValue (name value : String)
  deriving DecidableEq, Repr

def UsageError.message : UsageError → String
  | .unexpectedArgument argument => "unexpected argument '" ++ argument ++ "' found"
  | .repeatedOption name => "the argument '" ++ name ++ "' cannot be used multiple times"
  | .missingValue name => "a value is required for '" ++ name ++ "' but none was supplied"
  | .unwantedValue name value => "unexpected value '" ++ value ++ "' for '" ++ name ++ "' found"
  | .invalidValue name value => "invalid value '" ++ value ++ "' for '" ++ name ++ "'"

/-- An option that takes a value. -/
inductive ValueOption
  | output
  | styleConfig
  | version
  deriving DecidableEq, Repr

def ValueOption.name : ValueOption → String
  | .output => "--output"
  | .styleConfig => "--prettier-config"
  | .version => "--version"

/-- The options without a value. -/
inductive Switch
  | rawSchema
  | help
  deriving DecidableEq, Repr

def Switch.name : Switch → String
  | .rawSchema => "--raw-schema"
  | .help => "--help"

/-- What an argument says by itself. -/
inductive ArgumentForm
  | positional
  /-- Two dashes alone. -/
  | endOfOptions
  | switch (kind : Switch)
  /-- An option and the value written with it. -/
  | valued (kind : ValueOption) (value : Option String)
  | refused (error : UsageError)
  deriving DecidableEq, Repr

namespace ArgumentForm

/-- Text at an equals sign: what is before it, and what is after it if it is there. -/
def splitEquals (text : List Char) : String × Option String :=
  let name := text.takeWhile (· != '=')
  match text.drop name.length with
  | [] => (String.ofList name, none)
  | _ :: value => (String.ofList name, some (String.ofList value))

/-- An argument after its two dashes. -/
def ofLong (text : List Char) : ArgumentForm :=
  let (name, value) := splitEquals text
  let switch (kind : Switch) : ArgumentForm :=
    match value with
    | none => .switch kind
    | some value => .refused (.unwantedValue kind.name value)
  match name with
  | "output" => .valued .output value
  | "prettier-config" => .valued .styleConfig value
  | "version" => .valued .version value
  | "raw-schema" => switch .rawSchema
  | "help" => switch .help
  | _ => .refused (.unexpectedArgument ("--" ++ name))

/-- An argument after its one dash. What follows the letter of an option is its value, less an
equals sign before it. -/
def ofShort : List Char → ArgumentForm
  | ['o'] => .valued .output none
  | 'o' :: '=' :: value => .valued .output (some (String.ofList value))
  | 'o' :: value => .valued .output (some (String.ofList value))
  | 'h' :: _ => .switch .help
  | text => .refused (.unexpectedArgument (String.ofList ('-' :: text.take 1)))

def ofText (argument : String) : ArgumentForm :=
  match argument.toList with
  | ['-', '-'] => .endOfOptions
  | '-' :: '-' :: text => ofLong text
  | ['-'] => .positional
  | '-' :: text => ofShort text
  | _ => .positional

/-- Whether an argument may be the value of the option before it. -/
def isPositional (argument : String) : Bool :=
  ofText argument == .positional

end ArgumentForm

namespace Arguments

/-- What the arguments so far have given. -/
structure Given where
  input : Option String := none
  output : Option String := none
  styleConfig : Option String := none
  rawSchema : Bool := false
  version : Option Nat := none
  deriving DecidableEq, Repr

def Given.arguments (given : Given) : Arguments where
  input := given.input.getD Source.standardInputName
  output := given.output
  styleConfig := given.styleConfig
  rawSchema := given.rawSchema
  version := given.version

/-- A version as written: any spelling of the number two or three, with blanks around it. -/
def version? (text : String) : Option Nat :=
  (Binary64.ofText? (Text.trim text.toList)).bind fun number =>
    [2, 3].find? fun version => number.same (.ofInt version)

/-- A value for something that can be given once. -/
def once {α : Type} (name : String) (value : α) : Option α → Except UsageError (Option α)
  | none => .ok (some value)
  | some _ => .error (.repeatedOption name)

/-- A path given as the value of an option. It may not be empty. -/
def pathValue (name value : String) : Except UsageError String :=
  if value.isEmpty then .error (.missingValue name) else .ok value

def setValue (given : Given) (kind : ValueOption) (value : String) : Except UsageError Given :=
  match kind with
  | .output => do
    let path ← pathValue kind.name value
    return { given with output := ← once kind.name path given.output }
  | .styleConfig => do
    let path ← pathValue kind.name value
    return { given with styleConfig := ← once kind.name path given.styleConfig }
  | .version =>
    match version? value with
    | none => .error (.invalidValue kind.name value)
    | some version => do return { given with version := ← once kind.name version given.version }

def setInput (given : Given) (value : String) : Except UsageError Given :=
  match given.input with
  | none => .ok { given with input := some value }
  | some _ => .error (.unexpectedArgument value)

/-- Takes the arguments from left to right. -/
def read (given : Given) : List String → Except UsageError Request
  | [] => .ok (.generate given.arguments)
  | argument :: rest =>
    match ArgumentForm.ofText argument, rest with
    | .positional, rest => do read (← setInput given argument) rest
    | .endOfOptions, rest => do return .generate (← rest.foldlM setInput given).arguments
    | .refused error, _ => .error error
    | .switch .help, _ => .ok .help
    | .switch .rawSchema, rest =>
      if given.rawSchema then .error (.repeatedOption Switch.rawSchema.name)
      else read { given with rawSchema := true } rest
    | .valued kind (some value), rest => do read (← setValue given kind value) rest
    | .valued kind none, [] => .error (.missingValue kind.name)
    | .valued kind none, value :: rest => do
      if ArgumentForm.isPositional value then read (← setValue given kind value) rest
      else throw (.missingValue kind.name)

end Arguments

namespace Request

/-- The request that a command line makes. -/
def ofArguments (arguments : List String) : Except UsageError Request :=
  Arguments.read {} arguments

end Request

end ApiTypes
