import ApiTypes.Json.Basic
import ApiTypes.Problem
import ApiTypes.Text.Digits

/-!
The places of a document and the references between them. `Json.walk?` finds the node at a place,
`Json.locations` lists every place in document order, and `Index.resolve` follows a reference.
`Index.unvisited` counts the places not yet passed, which is what ends a walk along references:
`Index.unvisited_lt` says that passing a new place lowers it.
-/

namespace ApiTypes

namespace Json

/-- The number that a segment names in plain decimal form. -/
def elementNumber? (segment : String) : Option Nat :=
  let number := Text.digitsValue segment.toList
  if toString number = segment then some number else none

/-- The member or element of a node that a segment names. -/
def step? (node : Json) (segment : String) : Option Json :=
  match node with
  | .object fields => fields.lookup segment
  | .array items => (elementNumber? segment).bind (items[·]?)
  | _ => none

/-- The node that a path leads to. -/
def walk? (node : Json) : List String → Option Json
  | [] => some node
  | segment :: rest => (node.step? segment).bind (·.walk? rest)

mutual

/-- A node and all below it with their places, each before its children and the children in
document order. -/
def locations (here : Pointer) : Json → List (Pointer × Json)
  | .array items => (here, .array items) :: itemLocations here 0 items
  | .object fields => (here, .object fields) :: fieldLocations here fields
  | .null => [(here, .null)]
  | .bool value => [(here, .bool value)]
  | .number value => [(here, .number value)]
  | .string text => [(here, .string text)]

def itemLocations (here : Pointer) (number : Nat) : List Json → List (Pointer × Json)
  | [] => []
  | item :: rest =>
    item.locations (here.element number) ++ itemLocations here (number + 1) rest

def fieldLocations (here : Pointer) : List (String × Json) → List (Pointer × Json)
  | [] => []
  | (key, value) :: rest => value.locations (here.child key) ++ fieldLocations here rest

end

theorem mem_locations_self (here : Pointer) (node : Json) : (here, node) ∈ node.locations here := by
  cases node <;> simp [locations]

theorem itemLocations_subset (here : Pointer) (start : Nat) {items : List Json} {number : Nat}
    {item : Json} (found : items[number]? = some item) :
    item.locations (here.element (start + number)) ⊆ itemLocations here start items := by
  induction items generalizing start number with
  | nil => simp at found
  | cons head rest ih =>
    simp only [itemLocations]
    cases number with
    | zero =>
      simp only [List.getElem?_cons_zero, Option.some.injEq] at found
      subst found
      exact List.subset_append_left _ _
    | succ number =>
      rw [List.getElem?_cons_succ] at found
      have := ih (start + 1) found
      rw [show start + 1 + number = start + (number + 1) by omega] at this
      exact List.subset_append_of_subset_right _ this

theorem fieldLocations_subset {here : Pointer} {fields : List (String × Json)} {key : String}
    {value : Json} (found : fields.lookup key = some value) :
    value.locations (here.child key) ⊆ fieldLocations here fields := by
  induction fields with
  | nil => simp at found
  | cons head rest ih =>
    obtain ⟨k, v⟩ := head
    simp only [fieldLocations]
    rw [List.lookup_cons] at found
    by_cases same : key = k
    · subst same
      simp only [beq_self_eq_true, Option.some.injEq] at found
      subst found
      exact List.subset_append_left _ _
    · have other : (key == k) = false := by simpa using same
      rw [other] at found
      exact List.subset_append_of_subset_right _ (ih found)

theorem toString_elementNumber {segment : String} {number : Nat}
    (found : elementNumber? segment = some number) : toString number = segment := by
  simp only [elementNumber?] at found
  split at found
  · rename_i same
    cases found
    exact same
  · cases found

theorem step_locations_subset (here : Pointer) {node child : Json} {segment : String}
    (found : node.step? segment = some child) :
    child.locations (here.child segment) ⊆ node.locations here := by
  cases node with
  | object fields =>
    simp only [locations]
    exact List.subset_cons_of_subset _ (fieldLocations_subset found)
  | array items =>
    simp only [step?, Option.bind_eq_some_iff] at found
    obtain ⟨number, named, found⟩ := found
    have := itemLocations_subset here 0 found
    rw [Nat.zero_add, Pointer.element, toString_elementNumber named] at this
    simp only [locations]
    exact List.subset_cons_of_subset _ this
  | _ => simp [step?] at found

/-- Every node that a path leads to is among the locations, at that path. -/
theorem mem_locations_of_walk (here : Pointer) {path : List String} {node target : Json}
    (found : node.walk? path = some target) :
    (⟨here.segments ++ path⟩, target) ∈ node.locations here := by
  induction path generalizing here node with
  | nil =>
    simp only [walk?, Option.some.injEq] at found
    subst found
    simpa using mem_locations_self here node
  | cons segment rest ih =>
    simp only [walk?, Option.bind_eq_some_iff] at found
    obtain ⟨child, first, later⟩ := found
    have := step_locations_subset here first (ih (here.child segment) later)
    simpa [Pointer.child] using this

end Json

/-- A document whose places references lead to. When there is a root alias, a reference that leads
nowhere but goes on from the alias is taken from the root instead. -/
structure Index where
  document : Document
  rootAlias : Option Pointer := none

namespace Index

/-- The node at a place. -/
def get? (index : Index) (pointer : Pointer) : Option Json :=
  index.document.root.walk? pointer.segments

/-- All places with their nodes, in document order. -/
def locations (index : Index) : List (Pointer × Json) :=
  index.document.root.locations .root

/-- How many places there are. -/
def size (index : Index) : Nat :=
  index.locations.length

theorem mem_locations {index : Index} {pointer : Pointer} {node : Json}
    (found : index.get? pointer = some node) : (pointer, node) ∈ index.locations := by
  have := Json.mem_locations_of_walk .root found
  simpa [locations, Pointer.root] using this

/-- The places that are not among those passed. -/
def unvisited (index : Index) (passed : List Pointer) : Nat :=
  index.locations.countP fun location => !passed.contains location.1

theorem unvisited_lt {index : Index} {passed : List Pointer} {pointer : Pointer} {node : Json}
    (found : index.get? pointer = some node) (fresh : pointer ∉ passed) :
    index.unvisited (passed ++ [pointer]) < index.unvisited passed := by
  have fewer (locations : List (Pointer × Json)) :
      locations.countP (fun location => !(passed ++ [pointer]).contains location.1) ≤
        locations.countP fun location => !passed.contains location.1 := by
    refine List.countP_mono_left fun location _ h => ?_
    simp only [List.contains_eq_mem, Bool.not_eq_true', decide_eq_false_iff_not,
      List.mem_append] at h ⊢
    exact fun old => h (.inl old)
  obtain ⟨before, after, split⟩ := List.append_of_mem (mem_locations found)
  simp only [unvisited, split, List.countP_append, List.countP_cons]
  have first := fewer before
  have second := fewer after
  have gone : (!(passed ++ [pointer]).contains pointer) = false := by simp
  have present : (!passed.contains pointer) = true := by simpa using fresh
  rw [gone, present]
  simp only [Bool.false_eq_true, ↓reduceIte]
  omega

/-! ### References -/

/-- Where a reference leads. -/
structure Target (index : Index) where
  pointer : Pointer
  node : Json
  found : index.get? pointer = some node

/-- The place in the document, when there is one. -/
def target? (index : Index) (pointer : Pointer) : Option index.Target :=
  match found : index.get? pointer with
  | some node => some ⟨pointer, node, found⟩
  | none => none

/-- What is left of a path behind its beginning, if it begins so. -/
def pathAfter? (beginning path : List String) : Option (List String) :=
  if beginning.isPrefixOf path then some (path.drop beginning.length) else none

/-- The place that a pointer from a reference means: the place itself, or else the one that the
root alias makes of it. -/
def locate? (index : Index) (pointer : Pointer) : Option index.Target :=
  match index.target? pointer with
  | some target => some target
  | none =>
    match index.rootAlias with
    | none => none
    | some beginning =>
      (pathAfter? beginning.segments pointer.segments).bind fun rest => index.target? ⟨rest⟩

/-- Follows a reference written at a place. -/
def resolve (index : Index) (reference : String) (place : Pointer) :
    Except CompileError index.Target :=
  match (Pointer.ofReference? reference).bind index.locate? with
  | some target => .ok target
  | none => .error (.unresolvedReference reference place)

/-- Whether a reference came back to a place that is being expanded. -/
def Target.isCycle {index : Index} (target : index.Target) (path : List Pointer) : Bool :=
  path.contains target.pointer

end Index

end ApiTypes
