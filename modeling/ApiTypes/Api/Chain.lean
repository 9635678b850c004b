import ApiTypes.Index
import ApiTypes.Schema.Shape

/-!
Chains of references between the parts of an API document that are no schemas. A chain ends at the
first part that is no reference, or where the one who follows it stops; it must not come back to
a place it has passed.
-/

namespace ApiTypes.Api

/-- A node with the place it stands at. -/
structure Located where
  place : Pointer
  node : Json

/-- Follows the references that start with the node at `place`, after passing the places `seen`.
`stop?` looks at every target first and may end the walk there. -/
def followChain {α : Type} (index : Index) (stop? : Pointer → Option α) (seen : List Pointer)
    (here : Located) : Except CompileError (α ⊕ Located) :=
  match Schema.reference? here.node with
  | none => .ok (.inr here)
  | some reference =>
    match index.resolve reference here.place with
    | .error error => .error error
    | .ok target =>
      match stop? target.pointer with
      | some answer => .ok (.inl answer)
      | none =>
        match _passed : target.isCycle (seen ++ [here.place]) with
        | true => .error (.unresolvedReference reference here.place)
        | false =>
          followChain index stop? (seen ++ [here.place]) ⟨target.pointer, target.node⟩
termination_by index.unvisited (seen ++ [here.place])
decreasing_by
  exact Index.unvisited_lt target.found (by simpa [Index.Target.isCycle] using _passed)

/-- The part that a node is or refers to. -/
def deref (index : Index) (here : Located) : Except CompileError Json :=
  (followChain index (fun _ => (none : Option Empty)) [] here).map fun answer =>
    match answer with
    | .inr found => found.node

end ApiTypes.Api
