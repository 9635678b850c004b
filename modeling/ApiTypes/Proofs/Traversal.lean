import ApiTypes.Proofs.Place
import Mathlib.Data.List.Nodup

/-!
# The order of places

The places of a document as a walk through it comes by them:

* `Json.locations_eq`: the places of a document, node by node and child by child;
* `Json.locations_inOrder`: a place comes before all below it, and two places that part at a node
  come as the members or elements of this node do;
* `Walk.run_eq`: a walk with a stack of places to visit, which records each node that it takes from
  the stack and puts its children there from the last to the first, comes by the same places.
-/

namespace ApiTypes

/-! ## Children -/

namespace Json

/-- The members of an object by their keys, or the elements of an array by their numbers. -/
def children : Json → List (String × Json)
  | .object fields => fields
  | .array items => items.zipIdx.map fun entry => (toString entry.2, entry.1)
  | _ => []

/-- What the steps from a node to its children are called, in document order. -/
def keys (node : Json) : List String :=
  node.children.map (·.1)

theorem itemLocations_eq (here : Pointer) (start : Nat) (items : List Json) :
    itemLocations here start items =
      (items.zipIdx start).flatMap fun entry => entry.1.locations (here.element entry.2) := by
  induction items generalizing start with
  | nil => rfl
  | cons item rest ih => simp only [itemLocations, List.zipIdx_cons, List.flatMap_cons, ih]

theorem fieldLocations_eq (here : Pointer) (fields : List (String × Json)) :
    fieldLocations here fields =
      fields.flatMap fun field => field.2.locations (here.child field.1) := by
  induction fields with
  | nil => rfl
  | cons field rest ih => simp only [fieldLocations, List.flatMap_cons, ih]

/-- A node comes before all below it, and its children come one after the other. -/
theorem locations_eq (here : Pointer) (node : Json) :
    node.locations here = (here, node) :: node.children.flatMap fun child =>
      child.2.locations (here.child child.1) := by
  cases node with
  | array items =>
    simp only [locations, children, itemLocations_eq, List.flatMap_map]
    rfl
  | object fields => simp only [locations, children, fieldLocations_eq]
  | _ => simp only [locations, children, List.flatMap_nil]

theorem step?_of_mem_children {node : Json} {child : String × Json} (hd : node.DistinctKeys)
    (h : child ∈ node.children) : node.step? child.1 = some child.2 := by
  cases node with
  | object fields => exact lookup_of_mem hd.1 h
  | array items =>
    obtain ⟨entry, he, rfl⟩ := List.mem_map.1 h
    exact step?_element (List.mem_zipIdx_iff_getElem?.1 he)
  | _ => cases h

theorem mem_children_of_step? {node child : Json} {segment : String}
    (h : node.step? segment = some child) : (segment, child) ∈ node.children := by
  cases node with
  | object fields => exact mem_of_lookup h
  | array items =>
    obtain ⟨number, hn, hi⟩ := Option.bind_eq_some_iff.1 h
    rw [← toString_elementNumber hn]
    exact List.mem_map.2 ⟨(child, number), List.mem_zipIdx_iff_getElem?.2 hi, rfl⟩
  | _ => cases h

theorem keys_nodup {node : Json} (hd : node.DistinctKeys) : node.keys.Nodup := by
  cases node with
  | object fields => exact hd.1
  | array items =>
    have numbers : (Json.array items).keys = (items.zipIdx.map (·.2)).map toString := by
      simp only [keys, children, List.map_map]
      rfl
    rw [numbers, List.zipIdx_map_snd]
    exact List.Nodup.map (fun _ _ => toString_injective) List.nodup_range'
  | _ => exact List.nodup_nil

theorem depth_le_of_mem_locations {here : Pointer} {node : Json} (hd : node.DistinctKeys)
    {location : Pointer × Json} (h : location ∈ node.locations here) :
    here.depth ≤ location.1.depth := by
  obtain ⟨path, hp, -⟩ := walk_of_mem_locations here node hd h
  simp [Pointer.depth, hp]

/-- What is made of places no deeper than a node is made of the node alone. -/
theorem flatMap_locations_shallow {α : Type} {f : Pointer × Json → List α} {here : Pointer}
    {node : Json} (hd : node.DistinctKeys)
    (shallow : ∀ location, here.depth < location.1.depth → f location = []) :
    (node.locations here).flatMap f = f (here, node) := by
  rw [locations_eq, List.flatMap_cons, List.flatMap_assoc]
  refine (List.append_right_eq_self).2 (List.flatMap_eq_nil_iff.2 fun child hc => ?_)
  refine List.flatMap_eq_nil_iff.2 fun location hl => shallow location ?_
  have below := depth_le_of_mem_locations (hd.step (step?_of_mem_children hd hc)) hl
  simp only [Pointer.depth, Pointer.child, List.length_append, List.length_singleton] at below ⊢
  omega

end Json

/-! ## Order -/

namespace Json

theorem sizeOf_of_mem_children {node : Json} {child : String × Json} (h : child ∈ node.children) :
    sizeOf child.2 < sizeOf node := by
  cases node with
  | object fields =>
    have inside : sizeOf child < sizeOf fields := List.sizeOf_lt_of_mem h
    obtain ⟨key, value⟩ := child
    simp only [Prod.mk.sizeOf_spec, object.sizeOf_spec] at inside ⊢
    omega
  | array items =>
    obtain ⟨entry, he, rfl⟩ := List.mem_map.1 h
    exact sizeOf_mem_items (List.mem_of_getElem? (List.mem_zipIdx_iff_getElem?.1 he))
  | _ => cases h

/-- The first path comes before the second when a document is read from its beginning. -/
inductive InOrder : Json → List String → List String → Prop
  | above (node : Json) (segment : String) (rest : List String) : InOrder node [] (segment :: rest)
  | apart {node first second : Json} {a b : String}
      (beside : [(a, first), (b, second)].Sublist node.children) (p q : List String) :
      InOrder node (a :: p) (b :: q)
  | within {node child : Json} {segment : String} {p q : List String}
      (member : (segment, child) ∈ node.children) (later : InOrder child p q) :
      InOrder node (segment :: p) (segment :: q)

/-- Two places below one place, the first of them earlier in the document. -/
def Earlier (here : Pointer) (node : Json) (p q : Pointer) : Prop :=
  ∃ path path', p.segments = here.segments ++ path ∧ q.segments = here.segments ++ path' ∧
    node.InOrder path path'

theorem Earlier.of_child {here p q : Pointer} {node : Json} {child : String × Json}
    (hc : child ∈ node.children) (h : Earlier (here.child child.1) child.2 p q) :
    Earlier here node p q := by
  obtain ⟨path, path', hp, hq, order⟩ := h
  refine ⟨child.1 :: path, child.1 :: path', ?_, ?_, .within hc order⟩
  · rw [hp, Pointer.child, List.append_assoc, List.singleton_append]
  · rw [hq, Pointer.child, List.append_assoc, List.singleton_append]

theorem exists_path_of_mem_locations {here : Pointer} {node : Json} (hd : node.DistinctKeys)
    {location : Pointer × Json} (h : location ∈ node.locations here) :
    ∃ path, location.1.segments = here.segments ++ path :=
  (walk_of_mem_locations here node hd h).imp fun _ => And.left

theorem distinctKeys_of_mem_children {node : Json} {child : String × Json} (hd : node.DistinctKeys)
    (h : child ∈ node.children) : child.2.DistinctKeys :=
  hd.step (step?_of_mem_children hd h)

/-- The path to a place below a child begins with the name of the child. -/
theorem path_of_mem_child {here : Pointer} {node : Json} {child : String × Json}
    (hd : node.DistinctKeys) (hc : child ∈ node.children) {location : Pointer × Json}
    (h : location ∈ child.2.locations (here.child child.1)) :
    ∃ path, location.1.segments = here.segments ++ child.1 :: path := by
  obtain ⟨path, hp⟩ := exists_path_of_mem_locations (distinctKeys_of_mem_children hd hc) h
  refine ⟨path, ?_⟩
  rw [hp, Pointer.child, List.append_assoc, List.singleton_append]

/-- Of two locations the first is the earlier place. -/
theorem locations_inOrder (here : Pointer) (node : Json) (hd : node.DistinctKeys) :
    ((node.locations here).map (·.1)).Pairwise (Earlier here node) := by
  rw [locations_eq, List.map_cons, List.pairwise_cons, List.map_flatMap, List.pairwise_flatMap]
  refine ⟨fun place hp => ?_, fun child hc => ?_, ?_⟩
  · obtain ⟨child, hc, hp⟩ := List.mem_flatMap.1 hp
    obtain ⟨location, hl, rfl⟩ := List.mem_map.1 hp
    obtain ⟨path, hpath⟩ := path_of_mem_child hd hc hl
    exact ⟨[], _, (List.append_nil _).symm, hpath, .above node child.1 path⟩
  · have := sizeOf_of_mem_children hc
    exact (locations_inOrder (here.child child.1) child.2
      (distinctKeys_of_mem_children hd hc)).imp (Earlier.of_child hc)
  · refine List.pairwise_iff_forall_sublist.2 fun {first second} beside => ?_
    intro p hp q hq
    obtain ⟨location, hl, rfl⟩ := List.mem_map.1 hp
    obtain ⟨location', hl', rfl⟩ := List.mem_map.1 hq
    obtain ⟨path, hpath⟩ := path_of_mem_child hd (beside.subset (by simp)) hl
    obtain ⟨path', hpath'⟩ := path_of_mem_child hd (beside.subset (by simp)) hl'
    exact ⟨_, _, hpath, hpath', .apart beside path path'⟩
termination_by node

end Json

/-! ## A walk with a stack

What is still to be visited stands on a stack, the next place first. -/

namespace Walk

/-- Records the node at a place. A place that is recorded already keeps its position. -/
def record (entry : Pointer × Json) (recorded : List (Pointer × Json)) : List (Pointer × Json) :=
  if entry.1 ∈ recorded.map (·.1) then
    recorded.map fun other => if other.1 = entry.1 then entry else other
  else recorded ++ [entry]

/-- Puts the children of a node on a stack, from the last to the first. -/
def push (here : Pointer) (node : Json) (stack : List (Pointer × Json)) : List (Pointer × Json) :=
  node.children.reverse.foldl (fun stack child => (here.child child.1, child.2) :: stack) stack

/-- All places that a stack leads to. -/
def pending (stack : List (Pointer × Json)) : List (Pointer × Json) :=
  stack.flatMap fun entry => entry.2.locations entry.1

theorem push_eq (here : Pointer) (node : Json) (stack : List (Pointer × Json)) :
    push here node stack =
      (node.children.map fun child => (here.child child.1, child.2)) ++ stack := by
  rw [push, List.foldl_reverse]
  exact List.foldr_cons_eq_append

/-- To visit a place is to take it, and nothing else, from what is to be visited. -/
theorem pending_cons (here : Pointer) (node : Json) (stack : List (Pointer × Json)) :
    pending ((here, node) :: stack) = (here, node) :: pending (push here node stack) := by
  simp only [pending, push_eq, List.flatMap_cons, List.flatMap_append, List.flatMap_map,
    Json.locations_eq here node, List.cons_append]

/-- Visits the places on the stack and all below them. -/
def run (recorded : List (Pointer × Json)) : List (Pointer × Json) → List (Pointer × Json)
  | [] => recorded
  | (here, node) :: stack => run (record (here, node) recorded) (push here node stack)
termination_by stack => (pending stack).length
decreasing_by
  rw [pending_cons]
  exact Nat.lt_succ_self _

/-- As long as no place comes up twice, a walk records what it has yet to visit behind what it has
recorded. -/
theorem run_eq (recorded stack : List (Pointer × Json))
    (distinct : ((recorded ++ pending stack).map (·.1)).Nodup) :
    run recorded stack = recorded ++ pending stack := by
  fun_induction run recorded stack with
  | case1 recorded => exact (List.append_nil _).symm
  | case2 recorded here node stack ih =>
    have new : here ∉ recorded.map (·.1) := by
      intro known
      rw [pending_cons, List.map_append, List.map_cons] at distinct
      exact (List.nodup_append.1 distinct).2.2 here known here List.mem_cons_self rfl
    have moved : record (here, node) recorded = recorded ++ [(here, node)] := if_neg new
    rw [pending_cons, List.append_cons] at distinct ⊢
    rw [moved] at ih ⊢
    exact ih distinct

end Walk

end ApiTypes
