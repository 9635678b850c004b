import ApiTypes.Json.Printer
import ApiTypes.Problem
import ApiTypes.Text.Blank

/-!
The dialects of API documents: how one is recognised, and where it keeps its named schemas.
-/

namespace ApiTypes.Api

inductive Dialect
  /-- Version 2: `definitions`, `responses` and `parameters` at the root. -/
  | swagger2
  /-- Version 3: everything named under `components`. -/
  | openApi3
  deriving DecidableEq, Repr

namespace Dialect

/-- The dialect of a version number. -/
def ofNumber (version : Nat) : Except CompileError Dialect :=
  match version with
  | 2 => .ok .swagger2
  | 3 => .ok .openApi3
  | version => .error (.unsupportedVersion version)

/-- The version that a field names, as text or as a number. -/
def versionText? : Json → Option (List Char)
  | .string text => some (Text.trim text.toList)
  | .number number => some number.toText.toList
  | _ => none

/-- Whether a version is the major one or within it. -/
def isWithin (major : Char) (version : List Char) : Bool :=
  version == [major] || [major, '.'].isPrefixOf version

def unrecognized (reason : String) : CompileError :=
  .unrecognizedDocument .root reason

/-- The dialect of a document by its version field. -/
def ofField (dialect : Dialect) (name : String) (major : Char) (field : Json) :
    Except CompileError Dialect :=
  if ((versionText? field).map (isWithin major)).getD false then .ok dialect
  else .error (unrecognized ("unsupported " ++ name ++ " version " ++ field.toText))

/-- The dialect that a document declares. -/
def detect (root : Json) : Except CompileError Dialect :=
  if !root.isObject then .error (unrecognized "the document root must be an object")
  else
    match root.get? "swagger", root.get? "openapi" with
    | some field, _ => ofField .swagger2 "swagger" '2' field
    | none, some field => ofField .openApi3 "openapi" '3' field
    | none, none =>
      .error (unrecognized
        "no `openapi` or `swagger` field; compile it as a raw schema with an explicit version")

/-- Where named schemas are kept. In a bare map of schemas they stand at the root instead, and a
reference that goes on from here means one of them. -/
def schemasPlace : Dialect → Pointer
  | .swagger2 => ⟨["definitions"]⟩
  | .openApi3 => ⟨["components", "schemas"]⟩

end Dialect

end ApiTypes.Api
