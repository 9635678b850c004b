import ApiTypes.Api.Assembly
import ApiTypes.Formatter

/-!
From a document to the text of its declarations. A document that cannot be compiled gives no text;
a formatter that fails costs only the formatting, and is warned about.
-/

namespace ApiTypes

open Api

structure CompileOptions where
  /-- Whether the document is a bare map of named schemas. -/
  rawSchema : Bool := false
  /-- The dialect of a bare map, by number. -/
  version : Option Nat := none
  styleConfig : Option String := none

structure Compiled where
  text : String
  warnings : List Warning
  deriving DecidableEq, Repr

/-- The dialect of a document: the version asked for when it is a bare map of schemas, else the
one it declares. -/
def dialectOf (document : Document) (options : CompileOptions) : Except CompileError Dialect :=
  if options.rawSchema then
    match options.version with
    | none => .error .missingVersion
    | some version =>
      match Dialect.ofNumber version with
      | .error error => .error error
      | .ok dialect =>
        if document.root.isObject then .ok dialect
        else
          .error (.unrecognizedDocument .root "a raw schema must be an object of named schemas")
  else Dialect.detect document.root

/-- The index of a document. References into a bare map of schemas are written as if it stood
where the dialect keeps schemas. -/
def indexOf (document : Document) (dialect : Dialect) (rawSchema : Bool) : Index where
  document
  rootAlias := if rawSchema then some dialect.schemasPlace else none

/-- The declarations of a document. -/
def declare (document : Document) (options : CompileOptions) : Except CompileError Assembly :=
  match dialectOf document options with
  | .error error => .error error
  | .ok dialect =>
    assemble (indexOf document dialect options.rawSchema) dialect options.rawSchema

/-- The warning about a formatter that failed. -/
def formatWarning (cause : FormatError) : Warning :=
  ⟨.postProcessing, none, cause.message⟩

/-- Compiles a document and has the text formatted. -/
def compileWith {m : Type → Type} [Monad m] (formatter : Formatter m) (document : Document)
    (options : CompileOptions) : m (Except CompileError Compiled) :=
  match declare document options with
  | .error error => return .error error
  | .ok assembly => do
    match ← Declaration.printWith formatter options.styleConfig options.rawSchema
        assembly.declarations with
    | .ok text => return .ok ⟨text, assembly.warnings⟩
    | .error error =>
      return .ok ⟨error.unformatted, assembly.warnings ++ [formatWarning error.cause]⟩

/-- Compiles a document and leaves the text as printed. -/
def compile (document : Document) (options : CompileOptions) : Except CompileError Compiled :=
  (compileWith (unformatted : Formatter Id) document options).run

end ApiTypes
