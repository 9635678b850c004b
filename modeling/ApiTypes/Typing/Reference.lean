import ApiTypes.Index
import ApiTypes.Typing.Node

/-!
References between schemas. One to a declaration becomes its name. The target of any other is
expanded in its place the first time; from then on a short type is repeated and a long one
becomes a declaration, as does a target that is reached from within itself. A path never holds a
place twice, so following references ends with the places of the document.
-/

namespace ApiTypes.Typing

/-- The type for a reference written at `place`, while the places on `path` are being expanded. -/
def typeOfReference (index : Index) (path : List Pointer) (reference : String) (place : Pointer) :
    TypingM TypeExpr := do
  match index.resolve reference place with
  | .error error => throw error
  | .ok target =>
    let state ← get
    match state.names.get? target.pointer with
    | some name => return .ref name
    | none =>
      if _onPath : target.isCycle path then return .ref (← promote target.pointer)
      else
        match state.expanded.lookup target.pointer with
        | some type =>
          if type.isSimple then return type else return .ref (← promote target.pointer)
        | none =>
          let type ← typeOfNode (typeOfReference index (path ++ [target.pointer])) target.node
            target.pointer
          recordExpansion target.pointer type
          return type
termination_by index.unvisited path
decreasing_by
  exact Index.unvisited_lt target.found (by simpa [Index.Target.isCycle] using _onPath)

/-- The type of the schema at a place, while the places on `path` are being expanded. -/
def typeAt (index : Index) (path : List Pointer) (node : Json) (place : Pointer) :
    TypingM TypeExpr :=
  typeOfNode (typeOfReference index path) node place

/-- The type of the schema at a place where nothing else is being expanded. -/
def typeOfRoot (index : Index) (node : Json) (place : Pointer) : TypingM TypeExpr :=
  typeAt index [place] node place

end ApiTypes.Typing
