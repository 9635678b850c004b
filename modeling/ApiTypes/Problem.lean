import ApiTypes.Pointer

/-!
What can go wrong in a compilation. A `CompileError` ends it without output; a `Warning` goes with
an output that lost something.
-/

namespace ApiTypes

inductive CompileError
  /-- A reference written at a place names no place of the document. -/
  | unresolvedReference (reference : String) (place : Pointer)
  /-- A bare map of schemas came without the version of its dialect. -/
  | missingVersion
  | unsupportedVersion (version : Nat)
  /-- The document is of no known dialect. -/
  | unrecognizedDocument (place : Pointer) (reason : String)
  /-- A type refers to a name that no declaration has. -/
  | danglingReference (name : String) (place : Pointer)
  deriving DecidableEq, Repr

namespace CompileError

/-- The place responsible for the error. -/
def pointer? : CompileError → Option Pointer
  | .unresolvedReference _ place => some place
  | .unrecognizedDocument place _ => some place
  | .danglingReference _ place => some place
  | .missingVersion => none
  | .unsupportedVersion _ => none

def message : CompileError → String
  | .unresolvedReference reference place =>
    "unresolved reference `" ++ reference ++ "` at " ++ place.toText
  | .missingVersion =>
    "a schema version is required when compiling a raw schema (use version 2 or 3)"
  | .unsupportedVersion version =>
    "unsupported schema version " ++ toString version ++ " (expected 2 or 3)"
  | .unrecognizedDocument place reason =>
    "unrecognized document at " ++ place.toText ++ ": " ++ reason
  | .danglingReference name place =>
    "type `" ++ name ++ "` is referenced at " ++ place.toText ++ " but never declared"

end CompileError

inductive WarningKind
  /-- A schema that no type expresses became `unknown`. -/
  | unsupportedShape
  /-- Keywords whose combination has no agreed meaning became `unknown`. -/
  | ambiguousShape
  /-- The formatter failed and the text is as printed. -/
  | postProcessing
  deriving DecidableEq, Repr

def WarningKind.label : WarningKind → String
  | .unsupportedShape => "unsupported shape"
  | .ambiguousShape => "ambiguous shape"
  | .postProcessing => "post-processing"

structure Warning where
  kind : WarningKind
  /-- The place it is about, if it is about one. -/
  pointer : Option Pointer
  message : String
  deriving DecidableEq, Repr

/-- A warning as shown to the user. -/
def Warning.toText (warning : Warning) : String :=
  match warning.pointer with
  | some place => warning.kind.label ++ " at " ++ place.toText ++ ": " ++ warning.message
  | none => warning.kind.label ++ ": " ++ warning.message

end ApiTypes
