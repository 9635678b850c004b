import ApiTypes.NameTable
import ApiTypes.Problem
import ApiTypes.TypeExpr.Basic

/-!
What goes on while types are made: names are given away, targets of references are expanded or
promoted to declarations of their own, and warnings are raised. Nothing is taken back, also not
when making a type fails.
-/

namespace ApiTypes

namespace Typing

structure State where
  /-- The names given so far. A place with a name has a declaration. -/
  names : NameTable
  /-- The places promoted to declarations with their names, in order of promotion. -/
  promoted : List (Pointer × String) := []
  /-- The warnings raised so far, oldest first. -/
  warnings : List Warning := []
  /-- The targets of references expanded so far with their types, oldest first. -/
  expanded : List (Pointer × TypeExpr) := []

end Typing

/-- A step that makes something out of schemas. When it fails the state it reached is kept. -/
abbrev TypingM := ExceptT CompileError (StateM Typing.State)

namespace Typing

def warn (kind : WarningKind) (place : Pointer) (message : String) : TypingM Unit :=
  modify fun state =>
    { state with warnings := state.warnings ++ [⟨kind, some place, message⟩] }

/-- Any value, for what no type expresses. -/
def unsupported (place : Pointer) (reason : String) : TypingM TypeExpr := do
  warn .unsupportedShape place reason
  return .unknown (some reason)

/-- Any value, for what has no agreed meaning. -/
def ambiguous (place : Pointer) (reason : String) : TypingM TypeExpr := do
  warn .ambiguousShape place reason
  return .unknown (some reason)

/-- Makes a place a declaration, named after its last segment. -/
def promote (place : Pointer) : TypingM String := do
  let state ← get
  let (name, names) := state.names.assign place (place.last?.getD "Schema")
  set { state with names, promoted := state.promoted ++ [(place, name)] }
  return name

/-- Remembers the type of an expanded target. -/
def recordExpansion (place : Pointer) (type : TypeExpr) : TypingM Unit :=
  modify fun state => { state with expanded := state.expanded ++ [(place, type)] }

end Typing

end ApiTypes
