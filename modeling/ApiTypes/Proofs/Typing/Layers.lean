import ApiTypes.Compile
import ApiTypes.Proofs.Displayed
import ApiTypes.Proofs.Place
import ApiTypes.Proofs.TypeExpr.Size
import ApiTypes.Proofs.Typing.EqualsItself
import ApiTypes.Proofs.Typing.Returns
import ApiTypes.Proofs.Typing.SameShape
import Mathlib.Tactic.Linarith

/-!
# A schema in layers

A schema that lists a kind twice is typed twice, and the types differ where a reference is expanded
the first time and is short from then on. Here such schemas stand in one another, the layers, around
an innermost schema that refers to each of them and, again and again, to a tower of arrays.

* `Open.follow_begin`: layers that are being expanded are promoted when they are come to again;
* `Open.innermost`: so the innermost schema, come to for the first time, expands the next layer, and
  comes to itself inside it;
* `Met.within`, `within_first`: the second time all is settled, and each layer repeats the tower as
  often as the innermost schema refers to it (`FirstPass.large_within`).
-/

namespace ApiTypes

namespace TypeExpr

open Typing

/-! ## Types in arrays -/

/-- Arrays in one another around a type. -/
def arrays (item : TypeExpr) : Nat → TypeExpr
  | 0 => item
  | number + 1 => .array (arrays item number)

/-- Arrays in one another, each listed twice, when the innermost items are of the type `first` when
they are first come to and of the type `later` from then on. -/
def layersOf (first later : TypeExpr) : Nat → TypeExpr
  | 0 => first
  | number + 1 => .unionOf [.array (layersOf first later number), .array (arrays later number)]

theorem size_arrays (item : TypeExpr) (number : Nat) :
    (arrays item number).size = number + item.size := by
  induction number with
  | zero => exact (Nat.zero_add _).symm
  | succ number ih =>
    rw [arrays, size, ih]
    omega

theorem widening_arrays (item : TypeExpr) (number : Nat) :
    (arrays item number).widening = item.widening := by
  induction number with
  | zero => rfl
  | succ number ih => rw [arrays, widening, ih]

theorem equalsItself_arrays {item : TypeExpr} (h : EqualsItself item) (number : Nat) :
    EqualsItself (arrays item number) := by
  induction number with
  | zero => exact h
  | succ number ih => simpa [EqualsItself, arrays, same] using ih

theorem isSimple_arrays {item : TypeExpr} (h : item.isSimple = true) (number : Nat) :
    (arrays item number).isSimple = true := by
  induction number with
  | zero => exact h
  | succ number ih => simpa [arrays, isSimple] using ih

section
variable {a b first later : TypeExpr}

theorem unionOf_arrays_of_same (h : a.same b = true) : unionOf [.array a, .array b] = .array a := by
  simp [unionOf, alternatives, dedupe, insertNew, same, ofAlternatives, h]

theorem unionOf_arrays_of_differ (h : a.same b = false) :
    unionOf [.array a, .array b] = .union [.array a, .array b] := by
  simp [unionOf, alternatives, dedupe, insertNew, same, ofAlternatives, h]

section
variable (differ : first.same later = false)
include differ

/-- The types stay different in all arrays around them. -/
theorem same_layersOf (number : Nat) :
    (layersOf first later number).same (arrays later number) = false := by
  induction number with
  | zero => exact differ
  | succ number ih =>
    rw [layersOf, unionOf_arrays_of_differ ih, arrays]
    simp [same]

/-- So each level has all types that come later besides. -/
theorem le_size_layersOf (number : Nat) :
    first.size + number * later.size ≤ (layersOf first later number).size := by
  induction number with
  | zero => simp [layersOf]
  | succ number ih =>
    rw [layersOf, unionOf_arrays_of_differ (same_layersOf differ number)]
    simp only [size, sizes, size_arrays]
    rw [Nat.succ_mul]
    omega

end

theorem widening_layersOf (hf : first.widening = 0) (hl : later.widening = 0) (number : Nat) :
    (layersOf first later number).widening = 0 := by
  induction number with
  | zero => exact hf
  | succ number ih =>
    rw [layersOf, widening_unionOf]
    simp [wideningOfAll, widening, widening_arrays, ih, hl]

/-- Arrays are no reference and no intersection. -/
theorem layersOf_is_array (first later : TypeExpr) (number : Nat) :
    (layersOf first later (number + 1)).isIntersection = false ∧
      ∀ name, (layersOf first later (number + 1)).same (.ref name) = false := by
  rw [layersOf]
  cases h : (layersOf first later number).same (arrays later number) with
  | true =>
    rw [unionOf_arrays_of_same h]
    simp [same, isIntersection]
  | false =>
    rw [unionOf_arrays_of_differ h]
    simp [same, isIntersection]

end

/-! ## Types beside others -/

theorem intersectionOf_of_flat {types : List TypeExpr} (several : 2 ≤ types.length)
    (flat : ∀ type ∈ types, type.isIntersection = false) :
    intersectionOf [intersectionOf types] = .intersection types := by
  have apart : types.flatMap conjuncts = types := by
    rw [List.flatMap_congr fun type hm => conjuncts_of_not_intersection (flat type hm),
      List.flatMap_singleton']
  have whole : ofConjuncts types = .intersection types := by
    cases types with
    | nil => simp at several
    | cons first rest =>
      cases rest with
      | nil => simp at several
      | cons => rfl
  have once : intersectionOf types = .intersection types := by
    rw [intersectionOf, apart, whole]
  calc intersectionOf [intersectionOf types]
    _ = intersectionOf [.intersection types] := by rw [once]
    _ = ofConjuncts types := by rw [intersectionOf, List.flatMap_singleton, conjuncts]
    _ = .intersection types := whole

theorem sizes_replicate (count : Nat) (type : TypeExpr) :
    sizes (List.replicate count type) = count * type.size := by
  induction count with
  | zero => simp [sizes]
  | succ count ih =>
    rw [List.replicate_succ, sizes, ih, Nat.succ_mul]
    omega

/-- Lists with different types at one place are different. -/
theorem sameTypes_of_differ {as bs cs : List TypeExpr} {a b : TypeExpr} (differ : a.same b = false) :
    sameTypes (as ++ a :: bs) (as ++ b :: cs) = false := by
  induction as with
  | nil => simp [sameTypes, differ]
  | cons first rest ih => simp [sameTypes, ih]

end TypeExpr

namespace Typing

open Schema TypeExpr

/-! ## The schema -/

/-- What the schema is made of. -/
structure Layers where
  /-- How often the tower is referred to, besides twice. -/
  more : Nat
  height : Nat
  /-- How many schemas in one another say twice that their values are arrays. -/
  depth : Nat

namespace Layers

/-- Schemas of arrays in one another. -/
def tower : Nat → Json
  | 0 => .object []
  | height + 1 => .object [("items", tower height)]

/-- A schema that says twice that its values are arrays. -/
def twice (items : Json) : Json :=
  .object [("type", .array [.string "array", .string "array"]), ("items", items)]

/-- A reference to a place. -/
def refTo (place : Pointer) : Json :=
  .object [("$ref", .string place.toText)]

/-- Where the tower stands. -/
def side : Pointer :=
  ⟨["A", "side"]⟩

/-- Where the layer with a number stands, from the outside. -/
def spot (number : Nat) : Pointer :=
  ⟨"A" :: List.replicate (number + 1) "items"⟩

section
variable (layers : Layers)

/-- The tower, again and again, and the first layers. -/
def targetsTo (number : Nat) : List Pointer :=
  List.replicate (layers.more + 2) side ++ (List.range number).map spot

/-- What the innermost schema refers to. -/
def targets : List Pointer :=
  layers.targetsTo layers.depth

/-- The innermost schema is of all it refers to: the tower, and the layers around it. -/
def innermost : Json :=
  .object [("allOf", .array (layers.targets.map refTo))]

/-- The innermost schema in as many layers. -/
def within : Nat → Json
  | 0 => layers.innermost
  | number + 1 => twice (within number)

def schema : Json :=
  .object [("items", layers.within layers.depth), ("side", tower layers.height)]

theorem distinct_tower (height : Nat) : (tower height).DistinctKeys := by
  induction height with
  | zero => simp [tower, Json.DistinctKeys, Json.DistinctFields]
  | succ height ih => simp [tower, Json.DistinctKeys, Json.DistinctFields, ih]

theorem distinct_innermost : layers.innermost.DistinctKeys := by
  have items (places : List Pointer) : Json.DistinctItems (places.map refTo) := by
    induction places with
    | nil => simp [Json.DistinctItems]
    | cons place rest ih =>
      simp [Json.DistinctItems, refTo, Json.DistinctKeys, Json.DistinctFields, ih]
  simp [innermost, Json.DistinctKeys, Json.DistinctFields, items]

theorem distinct_within (number : Nat) : (layers.within number).DistinctKeys := by
  induction number with
  | zero => exact layers.distinct_innermost
  | succ number ih =>
    simp [within, twice, Json.DistinctKeys, Json.DistinctFields, Json.DistinctItems, ih]

/-- The schema as the only entry of a bare map of schemas. -/
def document : Document :=
  ⟨.object [("A", layers.schema)], by
    simp [Json.DistinctKeys, Json.DistinctFields, schema, distinct_within, distinct_tower]⟩

def index : Index :=
  indexOf layers.document .openApi3 true

end

/-! ### Where references lead -/

section
variable (layers : Layers)

theorem walk_within (number steps : Nat) :
    (layers.within (number + steps)).walk? (List.replicate steps "items") =
      some (layers.within number) := by
  induction steps with
  | zero => rfl
  | succ steps ih => exact ih

theorem get?_spot {number inside : Nat} (parts : layers.depth = number + inside) :
    layers.index.get? (spot number) = some (layers.within inside) := by
  have found := layers.walk_within inside number
  rw [Nat.add_comm, ← parts] at found
  exact found

theorem get?_side : layers.index.get? side = some (tower layers.height) :=
  rfl

theorem spot_injective : Function.Injective spot := by
  intro a b same
  have lengths := congrArg (fun place : Pointer => place.segments.length) same
  simpa [spot] using lengths

theorem spot_ne {a b : Nat} (h : a ≠ b) : spot a ≠ spot b :=
  fun same => h (spot_injective same)

theorem spot_ne_side (number : Nat) : spot number ≠ side := by
  simp [spot, side, List.replicate_succ]

theorem resolve_toText {index : Index} {place : Pointer} {node : Json}
    (plain : ∀ segment ∈ place.segments,
      Pointer.readSegment (Pointer.escapeSegment segment) = segment)
    (found : index.get? place = some node) (here : Pointer) :
    index.resolve place.toText here = .ok ⟨place, node, found⟩ := by
  have read : Pointer.ofReference? place.toText = some place := by
    rw [Pointer.ofReference?_toText, List.map_congr_left plain, List.map_id']
  unfold Index.resolve
  rw [read, Option.bind_some, Index.locate?, Index.target?_of_some found]

theorem resolve_side (here : Pointer) : layers.index.resolve side.toText here =
    .ok ⟨side, tower layers.height, layers.get?_side⟩ := by
  apply resolve_toText
  decide +kernel

theorem resolve_spot {number inside : Nat} (parts : layers.depth = number + inside)
    (here : Pointer) : layers.index.resolve (spot number).toText here =
      .ok ⟨spot number, layers.within inside, layers.get?_spot parts⟩ := by
  apply resolve_toText
  intro segment hm
  rcases List.mem_cons.1 hm with rfl | hm
  · decide +kernel
  · rw [List.eq_of_mem_replicate hm]
    decide +kernel

end

/-! ## Steps of typing -/

section
variable {index : Index} {path : List Pointer} {place : Pointer} {before mid after : State}

theorem refTo_returns {target : Pointer} {type : TypeExpr}
    (follow : Returns (typeOfReference index path target.toText place) before type after) :
    Returns (typeAt index path (refTo target) place) before type after := by
  have shape : shape (refTo target) = .reference target.toText := rfl
  apply typeAt_returns_of_shape rfl
  rw [shape]
  exact returns_bind_iff.2 ⟨type, after, follow, rfl⟩

theorem array_returns {node : Json} (inner : Inner node) {type : TypeExpr}
    (made : Returns (typeAt index path inner.node (place.child "items")) before type after) :
    Returns (coreType (innerAt index path) place (.array (.single inner))) before (.array type)
      after :=
  returns_map_iff.2 ⟨type, made, rfl⟩

theorem single_returns {node : Json} {inner : Inner node} {type : TypeExpr}
    (plain : isNullable node = false)
    (shape : shape node = .structural (.one (.array (.single inner))))
    (made : Returns (typeAt index path inner.node (place.child "items")) before type after) :
    Returns (typeAt index path node place) before (.array type) after := by
  apply typeAt_returns_of_shape plain
  rw [shape]
  exact returns_bind_iff.2 ⟨_, _, array_returns inner made, rfl⟩

theorem tower_returns (height : Nat) (place : Pointer) (state : State) :
    Returns (typeAt index path (tower height) place) state (arrays (.unknown none) height) state := by
  induction height generalizing place with
  | zero =>
    apply typeAt_returns_of_shape rfl
    rfl
  | succ height ih =>
    obtain ⟨inner, shape, inside⟩ : ∃ inner, shape (tower (height + 1)) =
        .structural (.one (.array (.single inner))) ∧ inner.node = tower height := by
      cases height <;> exact ⟨_, rfl, rfl⟩
    exact single_returns rfl shape (inside ▸ ih _)

theorem twice_returns {fields : List (String × Json)} {first second : TypeExpr}
    (once : Returns (typeAt index path (.object fields) (place.child "items")) before first mid)
    (again : Returns (typeAt index path (.object fields) (place.child "items")) mid second after) :
    Returns (typeAt index path (twice (.object fields)) place) before
      (.unionOf [.array first, .array second]) after := by
  obtain ⟨inner, shape, inside⟩ : ∃ inner, shape (twice (.object fields)) =
      .structural (.several [.array (.single inner), .array (.single inner)]) ∧
        inner.node = .object fields :=
    ⟨_, rfl, rfl⟩
  rw [← inside] at once again
  have cores : Returns (coreTypes (innerAt index path) place
      [.array (.single inner), .array (.single inner)]) before [.array first, .array second] after :=
    returns_bind_iff.2 ⟨_, _, array_returns inner once,
      returns_bind_iff.2 ⟨_, _, returns_bind_iff.2 ⟨_, _, array_returns inner again, rfl⟩, rfl⟩⟩
  apply typeAt_returns_of_shape rfl
  rw [shape]
  exact returns_bind_iff.2 ⟨_, _, returns_bind_iff.2 ⟨_, _, cores, rfl⟩, rfl⟩

theorem allOf_returns {items : List Json} {types : List TypeExpr}
    (turn : InTurn (fun entry => typeAt index path entry.2 entry.1) before
      (elementsAt (place.child "allOf") 0 items) types after) :
    Returns (typeAt index path (.object [("allOf", .array items)]) place) before
      (.intersectionOf [.intersectionOf types]) after := by
  have shape : shape (.object [("allOf", .array items)]) =
      .composite (composition (.object [("allOf", .array items)])) none := rfl
  have held : ((Json.object [("allOf", .array items)]).get? "allOf").bind Json.array? = some items :=
    rfl
  obtain ⟨inners, found, inside⟩ := innerItems?_of_array held
  have all : (composition (.object [("allOf", .array items)])).allOf = some inners := found
  apply typeAt_returns_of_shape rfl
  rw [shape]
  refine compositeType_returns_iff.2 ⟨⟨[], [.intersectionOf types], [], [], []⟩,
    ⟨⟨before, after, after, after⟩, rfl, ?_, rfl, rfl, rfl⟩, rfl⟩
  rw [all]
  rw [← inside] at turn
  exact returns_bind_iff.2 ⟨_, _, typesOfList_returns_iff.2 turn, rfl⟩

end

/-! ## States -/

/-- What a reference gives when its target has a name or a type is recorded for it. -/
def given (state : State) (place : Pointer) : TypeExpr :=
  match state.names.get? place with
  | some name => .ref name
  | none => (state.expanded.lookup place).getD .never

theorem given_of_named {state : State} {place : Pointer} {name : String}
    (named : state.names.get? place = some name) : given state place = .ref name := by
  unfold given
  rw [named]

theorem given_of_recorded {state : State} {place : Pointer} {type : TypeExpr}
    (unnamed : state.names.get? place = none) (recorded : state.expanded.lookup place = some type) :
    given state place = type := by
  unfold given
  rw [unnamed, recorded]
  rfl

theorem given_of_grows {state later : State} (grows : state.Grows later) {place : Pointer}
    {name : String} (named : state.names.get? place = some name) :
    given later place = given state place := by
  rw [given_of_named named, given_of_named (NameTable.get?_mono grows.names named)]

section
variable (layers : Layers)

def towerType : TypeExpr :=
  arrays (.unknown none) layers.height

/-- The tower has no name, and nothing but layers is promoted. -/
structure Kept (state : State) : Prop where
  unnamed : state.names.get? side = none
  promoted : ∀ entry ∈ state.promoted, ∃ number < layers.depth, entry.1 = spot number

/-- As many layers as said have names or are being expanded, and nothing is known of the layers
inside these. -/
structure Open (path : List Pointer) (number : Nat) (state : State) : Prop
    extends layers.Kept state where
  outside : side ∉ path
  recorded : ∀ type, state.expanded.lookup side = some type → type = layers.towerType
  passed : ∀ n < number, (∃ name, state.names.get? (spot n) = some name) ∨ spot n ∈ path
  ahead : ∀ n, number ≤ n → n < layers.depth →
    state.names.get? (spot n) = none ∧ state.expanded.lookup (spot n) = none ∧ spot n ∉ path

/-- The tower is recorded, and as many layers as said have names. -/
structure Met (number : Nat) (state : State) : Prop extends layers.Kept state where
  recorded : state.expanded.lookup side = some layers.towerType
  named : ∀ n < number, ∃ name, state.names.get? (spot n) = some name

/-- All that is referred to has been met. -/
abbrev Settled (state : State) : Prop :=
  layers.Met layers.depth state

/-- The type of the innermost schema from then on. -/
def settledType (state : State) : TypeExpr :=
  .intersection (layers.targets.map (given state))

/-- References to the targets are followed one after the other. They stand in a list at the place,
from a number on. -/
abbrev Follows (path : List Pointer) (place : Pointer) (number : Nat) (before : State)
    (targets : List Pointer) (types : List TypeExpr) (after : State) : Prop :=
  InTurn (fun entry => typeAt layers.index path entry.2 entry.1) before
    (elementsAt place number (targets.map refTo)) types after

end

section
variable {layers : Layers} {path : List Pointer} {place : Pointer} {number : Nat}
  {before mid after state : State}

theorem follows_append {as bs : List Pointer} {types types' : List TypeExpr}
    (first : layers.Follows path place number before as types mid)
    (rest : layers.Follows path place (number + as.length) mid bs types' after) :
    layers.Follows path place number before (as ++ bs) (types ++ types') after := by
  unfold Follows
  rw [List.map_append, elementsAt_append, List.length_map]
  exact first.append rest

theorem follows_one {target : Pointer} {type : TypeExpr}
    (h : ∀ place, Returns (typeAt layers.index path (refTo target) place) before type after) :
    layers.Follows path place number before [target] [type] after :=
  .cons (h _) .nil

theorem follows_steady {targets : List Pointer} {type : Pointer → TypeExpr}
    (h : ∀ target ∈ targets, ∀ place,
      Returns (typeAt layers.index path (refTo target) place) state (type target) state) :
    layers.Follows path place number state targets (targets.map type) state := by
  induction targets generalizing number with
  | nil => exact .nil
  | cons target rest ih =>
    refine .cons (h target List.mem_cons_self _) (ih ?_)
    exact fun other hm => h other (List.mem_cons_of_mem _ hm)

theorem side_returns (outside : side ∉ path) (unnamed : state.names.get? side = none)
    (recorded : state.expanded.lookup side = some layers.towerType) (place : Pointer) :
    Returns (typeAt layers.index path (refTo side) place) state layers.towerType state :=
  refTo_returns <| typeOfReference_returns_repeated (layers.resolve_side place) outside unnamed
    recorded (isSimple_arrays rfl _)

theorem spot_returns {inside : Nat} (parts : layers.depth = number + inside) {name : String}
    (named : state.names.get? (spot number) = some name) (place : Pointer) :
    Returns (typeAt layers.index path (refTo (spot number)) place) state (.ref name) state :=
  refTo_returns <| typeOfReference_returns_named (layers.resolve_spot parts place) named

/-! ### Following what has been met -/

/-- Following a reference changes nothing any more. -/
theorem Met.follow (met : layers.Met number state) (small : number ≤ layers.depth)
    (outside : side ∉ path) {target : Pointer} (hm : target ∈ layers.targetsTo number)
    (place : Pointer) :
    Returns (typeAt layers.index path (refTo target) place) state (given state target) state := by
  rcases List.mem_append.1 hm with hm | hm
  · rw [List.eq_of_mem_replicate hm, given_of_recorded met.unnamed met.recorded]
    exact side_returns outside met.unnamed met.recorded place
  · obtain ⟨n, hn, rfl⟩ := List.mem_map.1 hm
    have lt := List.mem_range.1 hn
    obtain ⟨name, named⟩ := met.named n lt
    rw [given_of_named named]
    exact spot_returns (Nat.add_sub_of_le (by omega)).symm named place

/-- What has been met gives the same later, whatever else is met. -/
theorem Met.given_eq (met : layers.Met number state) {most : Nat} (later : layers.Met most after)
    (grows : state.Grows after) :
    (layers.targetsTo number).map (given state) = (layers.targetsTo number).map (given after) := by
  apply List.map_congr_left
  intro target hm
  rcases List.mem_append.1 hm with hm | hm
  · rw [List.eq_of_mem_replicate hm, given_of_recorded met.unnamed met.recorded,
      given_of_recorded later.unnamed later.recorded]
  · obtain ⟨n, hn, rfl⟩ := List.mem_map.1 hm
    obtain ⟨name, named⟩ := met.named n (List.mem_range.1 hn)
    exact (given_of_grows grows named).symm

theorem Met.record (met : layers.Met number state) {target : Pointer} {type : TypeExpr} :
    layers.Met number { state with expanded := state.expanded ++ [(target, type)] } := by
  refine { met with recorded := ?_ }
  rw [List.lookup_append, met.recorded, Option.some_or]

/-! ### Following for the first time -/

/-- The tower is expanded when it is come to for the first time. -/
theorem Open.follow_side (h : layers.Open path number state) (place : Pointer) : ∃ after,
    Returns (typeAt layers.index path (refTo side) place) state layers.towerType after ∧
    layers.Open path number after ∧ layers.Met 0 after ∧ state.Grows after := by
  cases found : state.expanded.lookup side with
  | some type =>
    cases h.recorded type found
    exact ⟨state, side_returns h.outside h.unnamed found place, h,
      { h with recorded := found, named := by simp }, .refl state⟩
  | none =>
    have returned := refTo_returns <| typeOfReference_returns_expanded
      (layers.resolve_side place) h.outside h.unnamed found (tower_returns layers.height side state)
    refine ⟨_, returned, { h with recorded := ?_, ahead := ?_ },
      { h with recorded := ?_, named := by simp }, state.grows_record _ _⟩
    · intro type again
      rw [List.lookup_append, found, Option.none_or, List.lookup_cons_self] at again
      exact (Option.some.inj again).symm
    · intro n le lt
      obtain ⟨unnamed, new, away⟩ := h.ahead n le lt
      refine ⟨unnamed, ?_, away⟩
      simp [List.lookup_append, new, List.lookup_cons, beq_false_of_ne (spot_ne_side n)]
    · simp [List.lookup_append, found, towerType]

theorem Open.follow_sides (h : layers.Open path number state) (place : Pointer) : ∃ after,
    layers.Follows path place 0 state (layers.targetsTo 0)
      ((layers.targetsTo 0).map (given after)) after ∧
    layers.Open path number after ∧ layers.Met 0 after ∧ state.Grows after := by
  obtain ⟨after, first, still, met, grows⟩ := h.follow_side (place.element 0)
  have rest : layers.Follows path place 1 after (List.replicate (layers.more + 1) side)
      ((List.replicate (layers.more + 1) side).map (given after)) after := by
    apply follows_steady
    intro target hm place
    rw [List.eq_of_mem_replicate hm, given_of_recorded met.unnamed met.recorded]
    exact side_returns still.outside met.unnamed met.recorded place
  rw [← given_of_recorded met.unnamed met.recorded] at first
  refine ⟨after, ?_, still, met, grows⟩
  rw [targetsTo, List.range_zero, List.map_nil, List.append_nil, List.replicate_succ]
  exact .cons first rest

/-- A layer that is being expanded is promoted when it is come to again. -/
theorem Open.follow_spot (h : layers.Open path number state) {n : Nat} (met : layers.Met n state)
    (lt : n < number) (small : number ≤ layers.depth) (place : Pointer) : ∃ name after,
    Returns (typeAt layers.index path (refTo (spot n)) place) state (.ref name) after ∧
    after.names.get? (spot n) = some name ∧ layers.Open path number after ∧
    layers.Met (n + 1) after ∧ state.Grows after := by
  have parts : layers.depth = n + (layers.depth - n) := by omega
  have next {after : State} (grows : state.Grows after) {name : String}
      (named : after.names.get? (spot n) = some name) (m : Nat) (below : m < n + 1) :
      ∃ name, after.names.get? (spot m) = some name := by
    by_cases last : m = n
    · exact ⟨name, last ▸ named⟩
    · obtain ⟨name, found⟩ := met.named m (by omega)
      exact ⟨name, NameTable.get?_mono grows.names found⟩
  cases named : state.names.get? (spot n) with
  | some name =>
    exact ⟨name, state, spot_returns parts named place, named, h,
      { met with named := next (.refl state) named }, .refl state⟩
  | none =>
    -- without a name it is still being expanded
    have inside : spot n ∈ path := by
      apply (h.passed n lt).resolve_left
      rintro ⟨name, found⟩
      rw [named] at found
      cases found
    have returned := refTo_returns <| typeOfReference_returns_promoted
      (layers.resolve_spot parts place) named inside
    have grows := state.grows_promote (spot n) ((spot n).last?.getD "Schema")
      (state.promotedName (spot n))
    have fresh := NameTable.get?_extended ((spot n).last?.getD "Schema") named
    have kept : layers.Kept { state with
        names := state.names.extended (spot n) ((spot n).last?.getD "Schema")
        promoted := state.promoted ++ [(spot n, state.promotedName (spot n))] } := by
      constructor
      · exact (NameTable.get?_extended_of_ne _ (spot_ne_side n).symm).trans h.unnamed
      · intro entry hm
        rcases List.mem_append.1 hm with hm | hm
        · exact h.promoted entry hm
        · rw [List.mem_singleton.1 hm]
          exact ⟨n, by omega, rfl⟩
    refine ⟨_, _, returned, fresh, { kept, h with passed := ?_, ahead := ?_ },
      { kept, met with named := next grows fresh }, grows⟩
    · intro m below
      rcases h.passed m below with ⟨name, found⟩ | inside
      · exact .inl ⟨name, NameTable.get?_mono grows.names found⟩
      · exact .inr inside
    · intro m le below
      obtain ⟨unnamed, new, away⟩ := h.ahead m le below
      refine ⟨?_, new, away⟩
      exact (NameTable.get?_extended_of_ne _ (spot_ne (by omega))).trans unnamed

/-- What is being expanded is met in turn, after the tower. -/
theorem Open.follow_begin (h : layers.Open path number state) (small : number ≤ layers.depth)
    (place : Pointer) (count : Nat) (le : count ≤ number) : ∃ after,
    layers.Follows path place 0 state (layers.targetsTo count)
      ((layers.targetsTo count).map (given after)) after ∧
    layers.Open path number after ∧ layers.Met count after ∧ state.Grows after := by
  induction count with
  | zero => exact h.follow_sides place
  | succ count ih =>
    obtain ⟨mid, first, open_, met, grows⟩ := ih (by omega)
    obtain ⟨name, after, last, named, still, met', grows'⟩ :=
      open_.follow_spot met (by omega) small (place.element (0 + (layers.targetsTo count).length))
    refine ⟨after, ?_, still, met', grows.trans grows'⟩
    have split : layers.targetsTo (count + 1) = layers.targetsTo count ++ [spot count] := by
      simp [targetsTo, List.range_succ]
    rw [split, List.map_append, ← met.given_eq met' grows', List.map_singleton,
      given_of_named named]
    exact follows_append first (.cons last .nil)

/-! ## The innermost schema -/

/-- What the references of the innermost schema to the tower take. -/
def weight (layers : Layers) : Nat :=
  (layers.more + 2) * (layers.height + 1)

theorem Met.sizes_given (met : layers.Met number state) :
    layers.weight ≤ sizes ((layers.targetsTo number).map (given state)) := by
  have tower := given_of_recorded met.unnamed met.recorded
  rw [targetsTo, List.map_append, sizes_append, List.map_replicate, tower, sizes_replicate, towerType,
    size_arrays]
  exact Nat.le_add_right _ _

/-- What references give is no intersection, has no index signatures and equals itself. -/
theorem Met.given_plain (settled : layers.Settled state) {type : TypeExpr}
    (hm : type ∈ layers.targets.map (given state)) :
    type.isIntersection = false ∧ type.widening = 0 ∧ EqualsItself type := by
  obtain ⟨target, among, rfl⟩ := List.mem_map.1 hm
  rcases List.mem_append.1 among with among | among
  · rw [List.eq_of_mem_replicate among, given_of_recorded settled.unnamed settled.recorded]
    refine ⟨?_, widening_arrays _ _, equalsItself_arrays (equalsItself_unknown none) _⟩
    unfold towerType
    cases layers.height <;> rfl
  · obtain ⟨n, hn, rfl⟩ := List.mem_map.1 among
    obtain ⟨name, named⟩ := settled.named n (List.mem_range.1 hn)
    rw [given_of_named named]
    exact ⟨rfl, rfl, equalsItself_ref name⟩

section
variable (settled : layers.Settled state)
include settled

theorem Met.weight_le : layers.weight ≤ (layers.settledType state).size := by
  have := settled.sizes_given
  rw [settledType, size, targets]
  omega

theorem Met.widening_eq : (layers.settledType state).widening = 0 :=
  Nat.le_zero.1 (wideningOfAll_le.2 fun _ hm => Nat.le_of_eq (settled.given_plain hm).2.1)

theorem Met.equalsItself : EqualsItself (layers.settledType state) :=
  equalsItself_intersection.2 fun _ hm => (settled.given_plain hm).2.2

end

theorem innermost_returns {types : List TypeExpr}
    (follows : layers.Follows path (place.child "allOf") 0 before layers.targets types after)
    (flat : ∀ type ∈ types, type.isIntersection = false) :
    Returns (typeAt layers.index path layers.innermost place) before (.intersection types) after := by
  have several : 2 ≤ types.length := by
    have same := follows.length_eq
    simp only [elementsAt, targets, targetsTo, List.length_map, List.length_zipIdx,
      List.length_append, List.length_replicate] at same
    omega
  rw [← intersectionOf_of_flat several flat]
  exact allOf_returns follows

theorem within_object (layers : Layers) (number : Nat) :
    ∃ fields, layers.within number = .object fields := by
  cases number <;> exact ⟨_, rfl⟩

/-- Once all is settled, the layers are typed as arrays. -/
theorem Met.within (settled : layers.Settled state) (outside : side ∉ path) (number : Nat)
    (place : Pointer) :
    Returns (typeAt layers.index path (layers.within number) place) state
      (arrays (layers.settledType state) number) state := by
  induction number generalizing place with
  | zero =>
    apply innermost_returns
    · exact follows_steady fun _ hm place => settled.follow (Nat.le_refl _) outside hm place
    · exact fun _ hm => (settled.given_plain hm).1
  | succ number ih =>
    obtain ⟨fields, object⟩ := layers.within_object number
    have same := unionOf_arrays_of_same (equalsItself_arrays settled.equalsItself number)
    rw [Layers.within, arrays, ← same]
    rw [object] at ih ⊢
    exact twice_returns (ih _) (ih _)

/-- What comes of the innermost schema, and of all that is come to from there, when it is typed for
the first time and as many layers as said are still to be expanded. -/
structure FirstPass (layers : Layers) (ahead : Nat) (first : TypeExpr) (before after : State) :
    Prop where
  settled : layers.Settled after
  grows : before.Grows after
  widening : first.widening = 0
  large : layers.weight * ahead ^ 2 ≤ 2 * first.size
  later : ahead = 0 ∨ first.same (layers.settledType after) = false

/-- In the layers the type of the first time comes first, and everything is settled after it. -/
theorem within_first (outside : side ∉ path) {ahead : Nat}
    (innermost : ∀ place, ∃ first after,
      Returns (typeAt layers.index path layers.innermost place) state first after ∧
        layers.FirstPass ahead first state after) (number : Nat) (place : Pointer) :
    ∃ first after, Returns (typeAt layers.index path (layers.within number) place) state
        (layersOf first (layers.settledType after) number) after ∧
      layers.FirstPass ahead first state after := by
  induction number generalizing place with
  | zero => exact innermost place
  | succ number ih =>
    obtain ⟨first, after, once, pass⟩ := ih (place.child "items")
    have again := pass.settled.within outside number (place.child "items")
    obtain ⟨fields, object⟩ := layers.within_object number
    rw [object] at once again
    refine ⟨first, after, ?_, pass⟩
    rw [Layers.within, object, layersOf]
    exact twice_returns once again

section
variable {ahead : Nat} {first : TypeExpr} (pass : layers.FirstPass ahead first before after)
include pass

theorem FirstPass.widening_within (number : Nat) :
    (layersOf first (layers.settledType after) number).widening = 0 :=
  widening_layersOf pass.widening pass.settled.widening_eq number

/-- Each layer repeats what the innermost schema is from then on. -/
theorem FirstPass.large_within : layers.weight * (ahead + 1) ^ 2 ≤
    2 * (layers.weight + (layersOf first (layers.settledType after) (ahead + 1)).size) := by
  rcases pass.later with rfl | differ
  · -- with no layers ahead the tower alone is enough
    omega
  · have le := le_size_layersOf differ (ahead + 1)
    have enough := pass.settled.weight_le
    nlinarith [pass.large]

end

/-- When all layers are being expanded, there is nothing to be expanded but the tower. -/
theorem Open.innermost_last (h : layers.Open path layers.depth state) (place : Pointer) :
    ∃ first after, Returns (typeAt layers.index path layers.innermost place) state first after ∧
      layers.FirstPass 0 first state after := by
  obtain ⟨after, follows, -, settled, grows⟩ :=
    h.follow_begin (Nat.le_refl _) (place.child "allOf") layers.depth (Nat.le_refl _)
  have flat : ∀ type ∈ layers.targets.map (given after), type.isIntersection = false :=
    fun type hm => (settled.given_plain hm).1
  refine ⟨layers.settledType after, after, innermost_returns follows flat, ?_⟩
  exact { settled, grows, widening := settled.widening_eq, large := by simp, later := .inl rfl }

/-- While a layer is being expanded, it is one more of those that are. -/
theorem Open.inside (h : layers.Open path number state) :
    layers.Open (path ++ [spot number]) (number + 1) state := by
  refine { h with outside := ?_, passed := ?_, ahead := ?_ }
  · simp [h.outside, (spot_ne_side number).symm]
  · intro n lt
    by_cases last : n = number
    · rw [last]
      exact .inr (by simp)
    · exact (h.passed n (by omega)).imp_right (List.mem_append_left _)
  · intro n le lt
    obtain ⟨unnamed, new, away⟩ := h.ahead n (by omega) lt
    exact ⟨unnamed, new, by simp [away, spot_ne (show n ≠ number by omega)]⟩

/-- The layers inside the one with the number. -/
def targetsAfter (number ahead : Nat) : List Pointer :=
  (List.range ahead).map fun n => spot (number + (n + 1))

theorem targets_split {ahead : Nat} (parts : layers.depth = number + (ahead + 1)) :
    layers.targets = layers.targetsTo number ++ ([spot number] ++ targetsAfter number ahead) := by
  rw [targets, targetsTo, targetsTo, parts, List.range_add, List.range_succ_eq_map]
  simp [targetsAfter, Function.comp_def]

/-- One layer is expanded, with the innermost schema inside it, and everything else has been met. -/
theorem FirstPass.next {ahead : Nat} {first : TypeExpr} {inner : State}
    (pass : layers.FirstPass ahead first mid inner) (parts : layers.depth = number + (ahead + 1))
    (settled : layers.Settled after) (grows : before.Grows after) (outside : side ∉ path)
    (begun : layers.Follows path (place.child "allOf") 0 before (layers.targetsTo number)
      ((layers.targetsTo number).map (given after)) mid)
    (expanded : ∀ place, Returns (typeAt layers.index path (refTo (spot number)) place) mid
      (layersOf first (layers.settledType inner) (ahead + 1)) after) :
    ∃ whole, Returns (typeAt layers.index path layers.innermost place) before whole after ∧
      layers.FirstPass (ahead + 1) whole before after := by
  obtain ⟨apart, noRef⟩ := layersOf_is_array first (layers.settledType inner) ahead
  have narrow := pass.widening_within (ahead + 1)
  have large := pass.large_within
  generalize layersOf first (layers.settledType inner) (ahead + 1) = type at *
  have split := targets_split parts
  have rest (start : Nat) : layers.Follows path (place.child "allOf") start after
      (targetsAfter number ahead) ((targetsAfter number ahead).map (given after)) after := by
    apply follows_steady
    intro target hm place
    have among : target ∈ layers.targets := by
      rw [split]
      exact List.mem_append_right _ (List.mem_append_right _ hm)
    exact settled.follow (Nat.le_refl _) outside among place
  -- first what has been met before, then the layer, then what has been met inside it
  have follows := follows_append begun (follows_append (follows_one expanded) (rest _))
  have plain : ∀ t ∈ (layers.targetsTo number).map (given after) ++
      ([type] ++ (targetsAfter number ahead).map (given after)),
      t.isIntersection = false ∧ t.widening = 0 := by
    intro t hm
    have known : t ∈ layers.targets.map (given after) → t.isIntersection = false ∧ t.widening = 0 :=
      fun hm => ⟨(settled.given_plain hm).1, (settled.given_plain hm).2.1⟩
    rw [split] at known
    simp only [List.map_append, List.mem_append, List.map_singleton, List.mem_singleton]
      at hm known
    rcases hm with hm | rfl | hm
    · exact known (.inl hm)
    · exact ⟨apart, narrow⟩
    · exact known (.inr (.inr hm))
  refine ⟨_, innermost_returns (split ▸ follows) fun t hm => (plain t hm).1, settled, grows, ?_, ?_,
    .inr ?_⟩
  · exact Nat.le_zero.1 (wideningOfAll_le.2 fun t hm => Nat.le_of_eq (plain t hm).2)
  · have enough : layers.weight ≤ sizes ((layers.targetsTo number).map (given after)) :=
      Met.sizes_given { settled with named := fun n lt => settled.named n (by omega) }
    simp only [size, sizes_append, sizes]
    omega
  · -- from then on a reference stands where the layer is expanded now
    obtain ⟨name, named⟩ := settled.named number (by omega)
    rw [settledType, split, List.map_append, List.map_append, List.map_singleton, same,
      given_of_named named]
    exact sameTypes_of_differ (noRef name)

/-- The innermost schema, come to for the first time while as many layers as said are being
expanded: the next one is expanded, and so on inside it. -/
theorem Open.innermost (ahead : Nat) : ∀ {path : List Pointer} {number : Nat} {state : State},
    layers.depth = number + ahead → layers.Open path number state → ∀ place, ∃ first after,
      Returns (typeAt layers.index path layers.innermost place) state first after ∧
        layers.FirstPass ahead first state after := by
  induction ahead with
  | zero =>
    intro path number state parts h place
    rw [Nat.add_zero] at parts
    subst parts
    exact h.innermost_last place
  | succ ahead ih =>
    intro path number state parts h place
    obtain ⟨mid, begun, still, met, grows⟩ :=
      h.follow_begin (by omega) (place.child "allOf") number (Nat.le_refl _)
    obtain ⟨unnamed, new, away⟩ := still.ahead number (Nat.le_refl _) (by omega)
    obtain ⟨first, inner, made, pass⟩ := within_first still.inside.outside
      (fun place => ih (by omega) still.inside place) (ahead + 1) (spot number)
    have expanded (place : Pointer) := refTo_returns <| typeOfReference_returns_expanded
      (layers.resolve_spot parts place) away unnamed new made
    have later := pass.grows.trans (inner.grows_record (spot number)
      (layersOf first (layers.settledType inner) (ahead + 1)))
    rw [met.given_eq pass.settled.record later] at begun
    obtain ⟨whole, returned, next⟩ :=
      pass.next parts pass.settled.record (grows.trans later) h.outside begun expanded
    exact ⟨whole, _, returned, next⟩

end

end Layers

end Typing

end ApiTypes
