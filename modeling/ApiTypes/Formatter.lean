import ApiTypes.Declaration.Printer

/-!
Formatters: what may be asked to bring the printed text into a style. A formatter that fails loses
nothing, as its failure goes with the text it was given.
-/

namespace ApiTypes

inductive FormatError
  /-- There is no formatter, or it could not be started. -/
  | unavailable (detail : String)
  /-- The formatter would not take the text. -/
  | rejected (detail : String)
  /-- The formatter could not be talked to. -/
  | disconnected (detail : String)
  deriving DecidableEq, Repr

def FormatError.message : FormatError → String
  | .unavailable detail => "formatter is not available: " ++ detail
  | .rejected detail => "formatter rejected the output: " ++ detail
  | .disconnected detail => "formatter I/O failed: " ++ detail

/-- Takes a text and the style configuration asked for. Without one it may look for its own. -/
abbrev Formatter (m : Type → Type) := String → Option String → m (Except FormatError String)

/-- Leaves the text as it is. -/
def unformatted {m : Type → Type} [Monad m] : Formatter m :=
  fun text _ => return .ok text

/-- The failure of a formatter, with the text it was given. -/
structure PostProcessingError where
  cause : FormatError
  unformatted : String

def PostProcessingError.message (error : PostProcessingError) : String :=
  "post-processing failed: " ++ error.cause.message

namespace Declaration

/-- Prints declarations and has the text formatted. -/
def printWith {m : Type → Type} [Monad m] (formatter : Formatter m) (styleConfig : Option String)
    (rawSchema : Bool) (declarations : List Declaration) :
    m (Except PostProcessingError String) := do
  let text := print rawSchema declarations
  match ← formatter text styleConfig with
  | .ok formatted => return .ok formatted
  | .error cause => return .error ⟨cause, text⟩

end Declaration

end ApiTypes
