import ApiTypes.Pointer
import ApiTypes.Text.Identifier

/-!
Names of declarations. A table gives every place that is named one name, and no name twice. Which
name a place gets depends only on the places named before it.
-/

namespace ApiTypes

/-- The places named so far with their names, oldest first. -/
structure NameTable where
  entries : List (Pointer × String) := []
  deriving Repr

namespace NameTable

/-- The name of a place. -/
def get? (table : NameTable) (pointer : Pointer) : Option String :=
  table.entries.lookup pointer

/-- The names given away. -/
def taken (table : NameTable) : List String :=
  table.entries.map (·.2)

/-- Whether a name is given away. -/
def isTaken (table : NameTable) (name : String) : Bool :=
  table.taken.contains name

/-- The first of `candidate n`, `candidate (n + 1)`, … that is not in use. A candidate found in
use is taken off the list, so the search ends; as the candidates differ, nothing is lost by it. -/
def firstFree (candidate : Nat → String) (used : List String) (n : Nat) : String :=
  if candidate n ∈ used then firstFree candidate (used.erase (candidate n)) (n + 1)
  else candidate n
termination_by used.length
decreasing_by
  rename_i taken
  have := List.length_erase_of_mem taken
  have := List.length_pos_of_mem taken
  omega

/-- What tells a place apart from others that share its base name: the type name of its whole
path, less the marks in front. -/
def pathSuffix (pointer : Pointer) : String :=
  String.ofList ((Text.typeName (" ".intercalate pointer.segments)).toList.dropWhile (· == '_'))

/-- The name for a place not named yet: the base, or else the base with the path, or else the
base with the path and a number from 2 on. -/
def freshName (table : NameTable) (pointer : Pointer) (base : String) : String :=
  let plain := Text.typeName base
  if plain ∈ table.taken then
    let long := plain ++ "_" ++ pathSuffix pointer
    if long ∈ table.taken then firstFree (fun n => long ++ toString n) table.taken 2 else long
  else plain

/-- Names a place after `base`. A place that has a name keeps it. -/
def assign (table : NameTable) (pointer : Pointer) (base : String) : String × NameTable :=
  match table.get? pointer with
  | some name => (name, table)
  | none =>
    let name := table.freshName pointer base
    (name, ⟨table.entries ++ [(pointer, name)]⟩)

end NameTable

end ApiTypes
