import ApiTypes.Command.Host
import ApiTypes.Json.Parser
import ApiTypes.Yaml.Compose

/-!
Loading a document. The name of a file decides how its text is read; a name that says nothing, and
the standard input, are read as JSON and, where that fails, as YAML.
-/

namespace ApiTypes

/-- Where a document comes from. -/
inductive Source
  | standardInput
  | file (path : String)
  deriving DecidableEq, Repr

namespace Source

/-- The name of the standard input on the command line. -/
def standardInputName : String :=
  "-"

/-- The source that a name on the command line stands for. -/
def ofName (name : String) : Source :=
  if name == standardInputName then .standardInput else .file name

/-- A source as shown to the user. -/
def toText : Source → String
  | .standardInput => "stdin"
  | .file path => path

end Source

inductive TextFormat
  | json
  | yaml
  /-- JSON, or else YAML. -/
  | either
  deriving DecidableEq, Repr

namespace TextFormat

/-- The format that a file name calls for. Letter case does not count. -/
def ofPath (path : String) : TextFormat :=
  match (Path.extension? path).map fun name => String.ofList (name.toList.map Char.toLower) with
  | some "json" => .json
  | some "yaml" => .yaml
  | some "yml" => .yaml
  | _ => .either

def ofSource : Source → TextFormat
  | .standardInput => .either
  | .file path => ofPath path

/-- A JSON text as a document. -/
def parseJson? (text : String) : Option Document :=
  (Json.parse? text).map Document.ofJson

/-- A YAML text as a document. -/
def parseYaml? (text : String) : Option Document :=
  (Yaml.Value.parse? text).map fun value => Document.ofJson value.toJson

def parse? : TextFormat → String → Option Document
  | .json, text => parseJson? text
  | .yaml, text => parseYaml? text
  | .either, text => (parseJson? text).orElse fun _ => parseYaml? text

/-- What is said of a text that is not in the format. -/
def rejection : TextFormat → String
  | .json => "not valid JSON"
  | .yaml => "not valid YAML"
  | .either => "not valid JSON or YAML"

end TextFormat

inductive LoadError
  | unreadable (source : Source) (cause : FileError)
  | unparsable (source : Source) (format : TextFormat)
  deriving DecidableEq, Repr

def LoadError.message : LoadError → String
  | .unreadable source cause => "Failed to read " ++ source.toText ++ ": " ++ cause.message
  | .unparsable source format => "Failed to parse " ++ source.toText ++ ": " ++ format.rejection

namespace Source

variable {m : Type → Type} [Monad m] [Host m]

/-- The text of a source. -/
def read : Source → m (Except FileError String)
  | .standardInput => Host.readInput
  | .file path => Host.readFile path

/-- The document of a source. -/
def load (source : Source) : m (Except LoadError Document) := do
  match ← source.read with
  | .error cause => return .error (.unreadable source cause)
  | .ok text =>
    let format := TextFormat.ofSource source
    match format.parse? text with
    | some document => return .ok document
    | none => return .error (.unparsable source format)

end Source

end ApiTypes
