import ApiTypes.Command.Arguments
import ApiTypes.Command.Host
import ApiTypes.Compile

/-!
The command: it loads a document, compiles it and writes the text to a file or to the standard
output. What stops it is reported in one line, and the exit code says how it ended.
-/

namespace ApiTypes

namespace Arguments

/-- The source asked for. -/
def source (given : Arguments) : Source :=
  Source.ofName given.input

/-- How its document is to be compiled. -/
def options (given : Arguments) : CompileOptions :=
  ⟨given.rawSchema, given.version, given.styleConfig⟩

end Arguments

namespace Command

def programName : String :=
  "oats"

def programVersion : String :=
  "0.1.0"

def usage : String :=
  "Usage: " ++ programName ++ " [OPTIONS] [INPUT]"

/-- The answer to a call for help. -/
def helpLines : List String :=
  ["oats turns OpenAPI and JSON Schema documents into TypeScript types ✨",
    "",
    usage,
    "",
    "Arguments:",
    "  [INPUT]  Path to an OpenAPI/Swagger document or raw schema (JSON or YAML); " ++
      "`-` reads stdin [default: -]",
    "",
    "Options:",
    "  -o, --output <FILE>           Write the generated types to FILE instead of stdout",
    "      --prettier-config <FILE>  Prettier configuration to format with; " ++
      "defaults to the nearest .prettierrc",
    "      --raw-schema              Treat the input as a bare map of named schemas",
    "      --version <N>             Schema dialect for --raw-schema (2 or 3)",
    "  -h, --help                    Print help"]

/-- What stops the command. -/
inductive Failure
  | styleConfigMissing (path : String)
  | load (error : LoadError)
  | compile (source : Source) (error : CompileError)
  | makeDirectory (path : String) (cause : FileError)
  | writeFile (path : String) (cause : FileError)
  | writeOutput (cause : FileError)
  deriving DecidableEq, Repr

def Failure.message : Failure → String
  | .styleConfigMissing path => "Prettier config not found: " ++ path
  | .load error => error.message
  | .compile source error => "Failed to compile " ++ source.toText ++ ": " ++ error.message
  | .makeDirectory path cause => "Failed to create directory " ++ path ++ ": " ++ cause.message
  | .writeFile path cause => "Failed to write " ++ path ++ ": " ++ cause.message
  | .writeOutput cause => "Failed to write to stdout: " ++ cause.message

/-- A length of time as shown to the user. -/
def elapsedText (milliseconds : Nat) : String :=
  if milliseconds < 1000 then toString milliseconds ++ "ms"
  else toString (milliseconds / 1000) ++ "s " ++ toString (milliseconds % 1000) ++ "ms"

/-- How a run ends, as a number. -/
inductive ExitCode
  | success
  | failure
  | usage
  deriving DecidableEq, Repr

def ExitCode.number : ExitCode → Nat
  | .success => 0
  | .failure => 1
  | .usage => 2

variable {m : Type → Type} [Monad m] [Host m]

/-- Writes a file in a directory that is made if it is not there. -/
def writeFile (path text : String) : m (Except Failure Unit) := do
  match Path.parent? path with
  | none => write
  | some directory =>
    match ← Host.makeDirectories directory with
    | .error cause => return .error (.makeDirectory directory cause)
    | .ok () => write
where
  write : m (Except Failure Unit) := do
    match ← Host.writeFile path text with
    | .error cause => return .error (.writeFile path cause)
    | .ok () => return .ok ()

/-- Puts the text where it was asked for. -/
def deliver (source : Source) (start : Nat) (text : String) :
    Option String → m (Except Failure Unit)
  | some path => do
    match ← writeFile path text with
    | .error failure => return .error failure
    | .ok () =>
      let finish ← Host.milliseconds
      Host.announce ("🚀 " ++ source.toText ++ " -> " ++ path ++ " [" ++
        elapsedText (finish - start) ++ "]")
      return .ok ()
  | none => do
    match ← Host.print text with
    | .error cause => return .error (.writeOutput cause)
    | .ok () => return .ok ()

/-- Whether the style configuration asked for is there. -/
def checkStyleConfig : Option String → m (Except Failure Unit)
  | none => return .ok ()
  | some path => do
    if ← Host.isFile path then return .ok () else return .error (.styleConfigMissing path)

/-- The document asked for, compiled. -/
def compileSource (formatter : Formatter m) (given : Arguments) : m (Except Failure Compiled) := do
  match ← given.source.load with
  | .error error => return .error (.load error)
  | .ok document =>
    match ← compileWith formatter document given.options with
    | .error error => return .error (.compile given.source error)
    | .ok compiled => return .ok compiled

/-- The first line of a run that writes to a file. -/
def firstLine (given : Arguments) : m Unit :=
  if given.output.isSome then Host.announce ("✨ " ++ programName ++ " " ++ programVersion)
  else return ()

/-- A run after its first line. -/
def proceed (formatter : Formatter m) (given : Arguments) (start : Nat) :
    m (Except Failure Unit) := do
  match ← checkStyleConfig given.styleConfig with
  | .error failure => return .error failure
  | .ok () =>
    match ← compileSource formatter given with
    | .error failure => return .error failure
    | .ok compiled =>
      compiled.warnings.forM fun warning => Host.report ("⚠ " ++ warning.toText)
      deliver given.source start compiled.text given.output

/-- Generates the types that the arguments ask for. -/
def generate (formatter : Formatter m) (given : Arguments) : m (Except Failure Unit) := do
  let start ← Host.milliseconds
  firstLine given
  proceed formatter given start

/-- Runs a command line. That an answer about the command line cannot be printed stops nothing. -/
def run (formatter : Formatter m) (arguments : List String) : m ExitCode := do
  match Request.ofArguments arguments with
  | .error error =>
    let _ ← Host.printError ("error: " ++ error.message ++ "\n\n" ++ usage ++ "\n\n" ++
      "For more information, try '--help'.\n")
    return .usage
  | .ok .help =>
    let _ ← Host.print (String.join (helpLines.map (· ++ "\n")))
    return .success
  | .ok (.generate arguments) =>
    match ← generate formatter arguments with
    | .ok () => return .success
    | .error failure =>
      Host.report failure.message
      return .failure

end Command

end ApiTypes
