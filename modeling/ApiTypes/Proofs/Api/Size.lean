import ApiTypes.Proofs.Api.Cost
import ApiTypes.Proofs.Api.Seats
import ApiTypes.Proofs.Typing.Bounded
import ApiTypes.Proofs.Typing.Returns
import ApiTypes.Proofs.Typing.Tower
import Mathlib.Tactic.Linarith

/-!
# How large the declarations are

The types that a document declares have no more parts than ten times the cube of its places and one,
when no index signature stands beside properties and no schema lists a kind twice (`assemble_size`).
An index signature repeats the types of the properties beside it, and so again at every level: there
the size doubles, and no polynomial of the places is enough (`assemble_doubles`). A schema that lists
a kind twice is typed twice, and every level may add as much again.
-/

namespace ApiTypes.Api

open Typing TypeExpr

/-- How many types stand in the declared types, these among them. -/
def Assembly.size (assembly : Assembly) : Nat :=
  sizes (assembly.declarations.map (·.type))

/-- How many objects in one another, of the declared types, repeat the types of their properties. -/
def Assembly.widening (assembly : Assembly) : Nat :=
  wideningOfAll (assembly.declarations.map (·.type))

/-! ## The wrapper -/

theorem memberSizes_responses (responses : List Response) :
    memberSizes (responses.map fun response => Member.plain response.status (.ref response.name) false) =
      responses.length := by
  induction responses with
  | nil => rfl
  | cons first rest ih =>
    rw [List.map_cons, memberSizes, ih, List.length_cons, Nat.add_comm]
    rfl

theorem size_methodMember_le (operation : Operation) :
    memberSize (methodMember operation) ≤ operation.responses.length + 4 := by
  have responses := memberSizes_responses operation.responses
  unfold methodMember operationMembers
  simp only [memberSize, size, memberSizes_append, memberSizes, Member.plain] at responses ⊢
  rw [responses]
  cases operation.parametersNamed <;> cases operation.body <;>
    simp only [Option.toList_none, Option.toList_some, List.map_nil, List.map_cons, memberSizes,
      memberSize, size] <;> omega

theorem memberSizes_le_sum {α : Type} {make : α → Member} {bound : α → Nat}
    (le : ∀ a, memberSize (make a) ≤ bound a) (as : List α) :
    memberSizes (as.map make) ≤ (as.map bound).sum := by
  induction as with
  | nil => exact Nat.le_refl _
  | cons a rest ih =>
    rw [List.map_cons, memberSizes, List.map_cons, List.sum_cons]
    exact Nat.add_le_add (le a) ih

theorem length_pathsOf_le (operations : List Operation) :
    (pathsOf operations).length ≤ operations.length := by
  have grown (operations : List Operation) (paths : List String) :
      (operations.foldl (fun paths operation =>
        if paths.contains operation.path then paths else paths ++ [operation.path]) paths).length ≤
          paths.length + operations.length := by
    induction operations generalizing paths with
    | nil => exact Nat.le_refl _
    | cons operation rest ih =>
      rw [List.foldl_cons, List.length_cons]
      refine Nat.le_trans (ih _) ?_
      split
      · omega
      · rw [List.length_append, List.length_singleton]
        omega
  rw [pathsOf, ← Nat.zero_add operations.length]
  exact grown operations []

theorem size_wrapper_le (operations : List Operation) : (wrapper operations).type.size ≤
    1 + (operations.map fun operation => operation.responses.length + 5).sum := by
  have ofPath (path : String) : memberSize (pathMember operations path) ≤
      ((operations.filter (·.path == path)).map fun o => o.responses.length + 4).sum + 1 := by
    have methods := memberSizes_le_sum size_methodMember_le (operations.filter (·.path == path))
    rw [pathMember, Member.plain, memberSize, size]
    omega
  have paths := memberSizes_le_sum ofPath (pathsOf operations)
  have once := sum_filter_le (·.path) (fun o : Operation => o.responses.length + 4)
    (pathsOf_nodup operations) operations
  have fewer := length_pathsOf_le operations
  have one {α : Type} (f : α → Nat) (as : List α) :
      (as.map fun a => f a + 1).sum = (as.map f).sum + as.length := by
    rw [List.sum_map_add]
    simp
  rw [one] at paths
  rw [wrapper, size, one fun o : Operation => o.responses.length + 4]
  omega

/-! ## Making the declarations -/

section
variable {index : Index} {dialect : Dialect} {rawSchema : Bool}

/-- The types recorded on the way equal themselves, and the short ones are no towers. -/
theorem Assembled.within {found : List Candidate} {state : State} {declared promoted : List Declaration}
    (h : Assembled index dialect rawSchema found state declared promoted)
    (finite : index.document.root.Finite) : state.Within (2 * index.plainPlaces + 1) := by
  obtain ⟨names, start, run⟩ := h.run
  have equal : ∀ entry ∈ state.expanded, EqualsItself entry.2 :=
    run_expanded (P := fun _ => EqualsItself) (fun _ _ _ _ h => h)
      (fun _ _ => equalsItself_preserved finite) run start (by simp)
  have recorded : ∀ entry ∈ state.expanded, WellFormed entry.2 :=
    run_expanded (P := fun _ => WellFormed) (fun _ _ _ _ h => h)
      (fun state _ => wellFormed_preserved index state) run start (by simp)
  refine ⟨equal, fun entry hm short => ?_⟩
  obtain ⟨node, stands, typed⟩ := h.valid.expanded entry hm
  exact size_le_of_short (run_ordered run (ordered_start index names)) recorded h.valid.once stands
    typed short

theorem typedDeclarations_fit {budget : Budget} (covers : budget.Covers index)
    {planned : List (Pointer × String)} {names : NameTable} {found : List Candidate}
    {typed : List Declaration} {state : State} (start : State.Valid index planned { names })
    (stand : ∀ candidate ∈ found, candidate.Stands index)
    (h : (typedDeclarations index dialect found).run.run { names } = (.ok typed, state))
    (within : state.Within budget.limit) : DeclarationsFit typed
      ((found.map (Candidate.cost budget.charge)).sum + index.size * budget.charge +
        budget.paid state) := by
  unfold typedDeclarations at h
  rcases (allDeclarations_yields dialect stand { names }).cases with
    ⟨declared, mid, he, run, -⟩ | ⟨error, after, he, -⟩
  · rw [run_bind_of_ok he] at h
    have valid := run_valid run start
    have made := promotedDeclarations_made mid valid [] List.nil_prefix
    rw [List.map_nil] at made
    rcases he' : (promotedDeclarations index []).run.run mid with ⟨_ | promoted, after⟩
    · rw [run_bind_of_error he'] at h
      cases h
    · rw [run_bind_of_ok he'] at h
      cases h
      simp only [he'] at made
      obtain ⟨run', places, -⟩ := made
      have valid' := run_valid run' valid
      have few : promoted.length ≤ index.size := by
        have := Index.length_le_size valid'.promoted_nodup (by simpa using valid'.promoted)
        rwa [places, List.nil_append, List.map_map, List.length_map] at this
      obtain ⟨grows, ofPromoted⟩ := promotedDeclarations_spends covers [] mid he'
      obtain ⟨m, fit', paid'⟩ := ofPromoted within
      obtain ⟨k, fit, paid⟩ := (allDeclarations_spends covers stand { names } declared mid he).2
        (within.earlier grows)
      have charged := Nat.mul_le_mul_right budget.charge few
      simp only [DeclarationsFit, List.map_append]
      exact (fit.append fit').mono (by omega)
  · rw [run_bind_of_error he] at h
    cases h

/-! ## Counting -/

/-- References stand for types that are no higher than there are other schemas, and the more
references there are, the fewer these are. -/
theorem root_weight_le (index : Index) :
    index.document.root.weight (2 * index.plainPlaces + 1) + 2 ≤ index.size ^ 2 + 3 * index.size := by
  have shared := index.plainPlaces_references_le
  have positive := index.size_pos
  rw [Index.weight_root]
  generalize index.size = places at *
  generalize index.plainPlaces = plain at *
  generalize index.references = references at *
  obtain ⟨others, rfl⟩ := Nat.exists_eq_add_of_le shared
  rcases Nat.eq_zero_or_pos plain with rfl | some
  · rcases Nat.eq_zero_or_pos references with rfl | some
    · nlinarith
    · nlinarith
  · nlinarith [Nat.zero_le (plain * references), Nat.zero_le (references * references),
      Nat.zero_le (plain * others), Nat.zero_le (references * others)]

/-- The types of an operation and the way to them take six for each of its parts, besides what
schemas weigh. -/
theorem cost_le (charge : Nat) (found : List Candidate) :
    (found.map (Candidate.cost charge)).sum +
        ((operationsOf found).map fun operation => operation.responses.length + 5).sum ≤
      (charge + 6) * (found.map Candidate.parts).sum := by
  induction found with
  | nil => exact Nat.zero_le _
  | cons candidate rest ih =>
    rw [show candidate :: rest = [candidate] ++ rest from rfl, operationsOf_append]
    simp only [List.map_append, List.sum_append, List.map_cons, List.map_nil, List.sum_cons,
      List.sum_nil, Nat.mul_add]
    cases candidate with
    | component here kind name =>
      have none : operationsOf [.component here kind name] = [] := rfl
      simp only [none, Candidate.cost, Candidate.parts, List.map_nil, List.sum_nil]
      omega
    | operation operation =>
      have one : operationsOf [.operation operation] = [operation] := rfl
      simp only [one, Candidate.cost, Candidate.parts, Operation.cost, Operation.parts, List.map_cons,
        List.map_nil, List.sum_cons, List.sum_nil]
      nlinarith

theorem withWrapper_fit (rawSchema : Bool) (found : List Candidate) {typed : List Declaration}
    {k : Nat} (fit : DeclarationsFit typed k) : DeclarationsFit (withWrapper rawSchema found typed) (k +
      (1 + ((operationsOf found).map fun operation => operation.responses.length + 5).sum)) := by
  unfold withWrapper
  split
  · exact fit.mono (Nat.le_add_right _ _)
  · simp only [DeclarationsFit, List.map_append]
    exact fit.append (fitAll_singleton.2 (fits_of_size_le (size_wrapper_le _)))

/-- What the types of a document may take. -/
def budgetOf (index : Index) : Budget where
  limit := 2 * index.plainPlaces + 1
  charge := index.document.root.weight (2 * index.plainPlaces + 1)
  levels := index.document.root.repeats

theorem budgetOf_covers (finite : index.document.root.Finite) : (budgetOf index).Covers index :=
  ⟨finite, Nat.le_refl _, Nat.le_refl _, Nat.succ_pos _⟩

/-- Each part, each promoted place and each level of an expansion takes what a schema may weigh. -/
theorem assemble_fits (finite : index.document.root.Finite) {assembly : Assembly}
    (h : assemble index dialect rawSchema = .ok assembly) :
    DeclarationsFit assembly.declarations
      ((10 * index.size * (budgetOf index).charge + 48 * index.size + 1) *
        (index.document.root.repeats + 1)) := by
  obtain ⟨found, names, declared, promoted, state, collected, run, assembled, rfl⟩ :=
    assemble_runs h
  obtain ⟨valid, entries, stand⟩ := candidates_planned.of_ok collected
  have start : State.Valid index (found.flatMap Candidate.declared) { names } :=
    entries ▸ valid_start valid
  have fit := withWrapper_fit rawSchema found <|
    typedDeclarations_fit (budgetOf_covers finite) start stand run (assembled.within finite)
  have few : state.expanded.length ≤ index.size := by
    rw [← List.length_map (·.1)]
    refine Index.length_le_size assembled.valid.once fun place hm => ?_
    obtain ⟨entry, he, rfl⟩ := List.mem_map.1 hm
    obtain ⟨node, hn, -⟩ := assembled.valid.expanded entry he
    rw [hn]
    rfl
  obtain ⟨places, gathered⟩ := candidates_places (fun _ hm => Index.get?_of_mem_locations hm) collected
  have parts := parts_le (places.nodup index.locations_nodup) gathered stand
  have cost := Nat.le_trans (cost_le (budgetOf index).charge found) (Nat.mul_le_mul_left _ parts)
  have paid := Nat.mul_le_mul_left ((index.document.root.repeats + 1) * (budgetOf index).charge) few
  refine fit.mono ?_
  rw [Budget.paid, show (budgetOf index).levels = index.document.root.repeats from rfl]
  nlinarith [Nat.zero_le (index.size * (budgetOf index).charge * index.document.root.repeats),
    Nat.zero_le (index.size * index.document.root.repeats)]

/-- What a document declares has no more parts than ten times the cube of its places and one, but
that each level of index signatures beside properties may double it, and each level of schemas that
list a kind again may add as much. -/
theorem assemble_size (index : Index) (dialect : Dialect) (rawSchema : Bool)
    (finite : index.document.root.Finite) {assembly : Assembly}
    (h : assemble index dialect rawSchema = .ok assembly) :
    assembly.size ≤ 10 * (index.size + 1) ^ 3 * (index.document.root.repeats + 1) *
      2 ^ assembly.widening := by
  have light : (budgetOf index).charge + 2 ≤ index.size ^ 2 + 3 * index.size := root_weight_le index
  have enough : 10 * index.size * (budgetOf index).charge + 48 * index.size + 1 ≤
      10 * (index.size + 1) ^ 3 := by
    have := Nat.mul_le_mul_left (10 * index.size) light
    nlinarith
  calc assembly.size
    _ ≤ 2 ^ assembly.widening * ((10 * index.size * (budgetOf index).charge + 48 * index.size + 1) *
        (index.document.root.repeats + 1)) := assemble_fits finite h
    _ ≤ 2 ^ assembly.widening * (10 * (index.size + 1) ^ 3 * (index.document.root.repeats + 1)) :=
      Nat.mul_le_mul_left _ (Nat.mul_le_mul_right _ enough)
    _ = _ := Nat.mul_comm _ _

end

theorem assemble_size_petStore : petStore.root.Finite ∧ ∃ assembly,
    assemble (indexOf petStore .openApi3 false) .openApi3 false = .ok assembly ∧
      assembly.size ≤ 10 * 39 ^ 3 * (0 + 1) * 2 ^ 0 := by
  have finite : petStore.root.Finite := Json.Finite.merged _ (by simp)
  have narrow : (assemble (indexOf petStore .openApi3 false) .openApi3 false).toOption.map
      Assembly.widening = some 0 := by
    decide +kernel
  obtain ⟨assembly, he, widening⟩ := ok_of_computed narrow
  have bound := assemble_size (indexOf petStore .openApi3 false) .openApi3 false finite he
  have size : (indexOf petStore .openApi3 false).size = 38 := by decide +kernel
  have repeats : (indexOf petStore .openApi3 false).document.root.repeats = 0 := by decide +kernel
  rw [widening, size, repeats] at bound
  exact ⟨finite, assembly, he, bound⟩

/-! ## A map with one entry -/

/-- Only what stands at the root of a bare map is a candidate. -/
theorem candidates_deep {index : Index} {dialect : Dialect} {locations : List (Pointer × Json)}
    (deep : ∀ location ∈ locations, location.1.depth ≠ 1) (names : NameTable) :
    (candidates index dialect true locations).run names = .ok ([], names) := by
  induction locations with
  | nil => rfl
  | cons location rest ih =>
    obtain ⟨place, node⟩ := location
    have none : (candidateAt index dialect true ⟨place, node⟩).run names = .ok (none, names) := by
      have other : componentKind? dialect true place = Option.none := by
        simp [componentKind?, deep _ List.mem_cons_self]
      unfold candidateAt
      simp only [other]
      rfl
    have later := ih fun l hm => deep l (List.mem_cons_of_mem _ hm)
    exact run_bind_eq_ok.2 ⟨_, _, none, run_bind_eq_ok.2 ⟨_, _, later, rfl⟩⟩

/-- The names when the entry has got its own. -/
def entryNames : NameTable :=
  ⟨[(⟨["A"]⟩, Text.typeName "A")]⟩

def entryDeclaration (node : Json) (type : TypeExpr) : Declaration :=
  ⟨Text.typeName "A", ⟨["A"]⟩, .schema, type, Schema.doc? node⟩

section
variable {document : Document} {node : Json} (only : document.root = .object [("A", node)])
include only

theorem locations_single : ∃ deep,
    (indexOf document .openApi3 true).locations = (.root, document.root) :: (⟨["A"]⟩, node) :: deep ∧
    ∀ location ∈ deep, location.1.depth ≠ 1 := by
  refine ⟨node.children.flatMap fun child =>
    child.2.locations ((⟨["A"]⟩ : Pointer).child child.1), ?_, fun location hm => ?_⟩
  · have below := Json.locations_eq ⟨["A"]⟩ node
    simp only [Index.locations, indexOf, only, Json.locations, Json.fieldLocations, List.append_nil]
    rw [← below]
    rfl
  · obtain ⟨child, hc, hl⟩ := List.mem_flatMap.1 hm
    have distinct : node.DistinctKeys := by
      have := document.distinct
      rw [only] at this
      simpa [Json.DistinctKeys, Json.DistinctFields] using this
    have below := Json.depth_le_of_mem_locations
      (distinct.step (Json.step?_of_mem_children distinct hc)) hl
    have two : 2 ≤ location.1.depth := below
    omega

theorem candidates_single :
    (candidates (indexOf document .openApi3 true) .openApi3 true
      (indexOf document .openApi3 true).locations).run {} =
        .ok ([.component ⟨⟨["A"]⟩, node⟩ .schema (Text.typeName "A")], entryNames) := by
  obtain ⟨deep, locations, deeper⟩ := locations_single only
  have named : (assignName ⟨["A"]⟩ "A").run {} = .ok (Text.typeName "A", entryNames) := by
    change Except.ok (({} : NameTable).assign ⟨["A"]⟩ "A") = _
    simp [NameTable.assign, NameTable.get?, NameTable.freshName, NameTable.taken, entryNames]
  rw [locations]
  refine run_bind_eq_ok.2 ⟨none, {}, rfl, run_bind_eq_ok.2 ⟨_, _, ?_, rfl⟩⟩
  refine run_bind_eq_ok.2
    ⟨some (.component ⟨⟨["A"]⟩, node⟩ .schema (Text.typeName "A")), entryNames, ?_, ?_⟩
  · exact run_bind_eq_ok.2 ⟨_, _, named, rfl⟩
  · exact run_bind_eq_ok.2 ⟨[], _, candidates_deep deeper _, rfl⟩

/-- The entry is declared, and then what was promoted while it was typed. -/
theorem assemble_single {type : TypeExpr} {mid after : State} {promoted : List Declaration}
    (typed : Returns (typeAt (indexOf document .openApi3 true) [⟨["A"]⟩] node ⟨["A"]⟩)
      { names := entryNames } type mid)
    (declared : Returns (promotedDeclarations (indexOf document .openApi3 true) []) mid promoted
      after) :
    assemble (indexOf document .openApi3 true) .openApi3 true =
      .ok ⟨entryDeclaration node type :: promoted, after.warnings⟩ := by
  have entry : Returns (candidateDeclarations (indexOf document .openApi3 true) .openApi3
      (.component ⟨⟨["A"]⟩, node⟩ .schema (Text.typeName "A"))) { names := entryNames }
      [entryDeclaration node type] mid :=
    returns_bind_iff.2 ⟨type, mid, typed, rfl⟩
  have all : Returns (allDeclarations (indexOf document .openApi3 true) .openApi3
      [.component ⟨⟨["A"]⟩, node⟩ .schema (Text.typeName "A")]) { names := entryNames }
      [entryDeclaration node type] mid :=
    returns_bind_iff.2 ⟨_, _, entry, rfl⟩
  exact assemble_of_typed (candidates_single only)
    (returns_bind_iff.2 ⟨_, _, all, returns_bind_iff.2 ⟨_, _, declared, rfl⟩⟩)

end

/-! ## Schemas that double -/

section

open Schema

/-- Schemas in one another, of which each has another property and says something of other keys. -/
def chain : Nat → Json
  | 0 => .object [("type", .string "string")]
  | depth + 1 => .object [("properties", .object [("a", chain depth)]),
      ("additionalProperties", .object [("type", .string "string")])]

def chainType : Nat → TypeExpr
  | 0 => .string
  | depth + 1 => .object [.plain "a" (chainType depth) true,
      .index .string (widenIndex .string [chainType depth] true)]

theorem shape_chain (depth : Nat) :
    shape (chain (depth + 1)) = .structural (.one (.object (objectShape (chain (depth + 1))))) :=
  rfl

theorem objectShape_chain (depth : Nat) : ∃ p q, objectShape (chain (depth + 1)) =
    { properties := some [("a", ⟨chain depth, p⟩)], required := [],
      additional := .schema ⟨chain 0, q⟩ } :=
  ⟨_, _, rfl⟩

theorem run_string (follow : String → Pointer → TypingM TypeExpr) (place : Pointer) (state : State) :
    (typeOfNode follow (chain 0) place).run.run state = (.ok .string, state) := by
  rw [typeOfNode]
  rfl

theorem propertyOf_chain (depth : Nat) (type : TypeExpr) :
    propertyOf [] "a" (chain depth) type = .plain "a" type true := by
  cases depth <;> rfl

section
variable (follow : String → Pointer → TypingM TypeExpr) (depth : Nat) (place : Pointer) (state : State)

theorem run_chain :
    (typeOfNode follow (chain depth) place).run.run state = (.ok (chainType depth), state) := by
  induction depth generalizing place with
  | zero => exact run_string follow place state
  | succ depth ih =>
    let inside (inner : Inner (chain (depth + 1))) := typeOfNode follow inner.node
    have object : (objectType inside (objectShape (chain (depth + 1))) place).run.run state =
        (.ok (chainType (depth + 1)), state) := by
      obtain ⟨p, q, shape⟩ := objectShape_chain depth
      have fields : (typesOfFields inside (place.child "properties")
          [("a", ⟨chain depth, p⟩)]).run.run state = (.ok [chainType depth], state) := by
        rw [typesOfFields, run_bind_of_ok (ih _)]
        rfl
      have additional : (additionalType inside place (.schema ⟨chain 0, q⟩)).run.run state =
          (.ok (some .string), state) := by
        rw [additionalType, map_eq_pure_bind, run_bind_of_ok (run_string follow _ state)]
        rfl
      unfold objectType
      rw [shape, Option.getD_some, run_bind_of_ok fields, run_bind_of_ok additional, chainType,
        ← propertyOf_chain depth]
      rfl
    have made : (shapeType inside follow place (shape (chain (depth + 1)))).run.run state =
        (.ok (chainType (depth + 1), false), state) := by
      rw [shape_chain, shapeType, baseType, coreType, run_bind_of_ok object]
      rfl
    rw [typeOfNode, run_bind_of_ok made]
    rfl

end

/-- A property that is an object is repeated in full. -/
theorem widenIndex_object (members : List Member) : widenIndex .string [.object members] true =
    .union [.string, .object members, .undefined] := by
  simp [widenIndex, unionOf, alternatives, dedupe, insertNew, same, ofAlternatives, string, undefined]

theorem widenIndex_string : widenIndex .string [.string] true = .union [.string, .undefined] := by
  simp [widenIndex, unionOf, alternatives, dedupe, insertNew, same, ofAlternatives, string, undefined]

theorem size_chainType (depth : Nat) : (chainType (depth + 1)).size + 5 = 11 * 2 ^ depth := by
  induction depth with
  | zero =>
    rw [chainType, chainType, widenIndex_string]
    rfl
  | succ depth ih =>
    have twice : (chainType (depth + 1 + 1)).size = 2 * (chainType (depth + 1)).size + 5 := by
      obtain ⟨members, object⟩ : ∃ members, chainType (depth + 1) = .object members := ⟨_, rfl⟩
      rw [chainType, object, widenIndex_object]
      simp only [size, memberSizes, memberSize, sizes, Member.plain, string, undefined]
      omega
    rw [twice, Nat.pow_succ]
    omega

theorem distinct_chain (depth : Nat) : (chain depth).DistinctKeys := by
  induction depth with
  | zero => simp [chain, Json.DistinctKeys, Json.DistinctFields]
  | succ depth ih => simp [chain, Json.DistinctKeys, Json.DistinctFields, ih]

theorem length_locations_chain (depth : Nat) (here : Pointer) :
    ((chain depth).locations here).length = 4 * depth + 2 := by
  induction depth generalizing here with
  | zero => rfl
  | succ depth ih =>
    simp only [chain, Json.locations, Json.fieldLocations, List.length_cons, List.length_append, ih,
      List.length_nil]
    omega

/-- A chain as the only entry of a bare map of schemas. -/
def chainDocument (depth : Nat) : Document :=
  ⟨.object [("A", chain depth)], by simp [Json.DistinctKeys, Json.DistinctFields, distinct_chain]⟩

theorem assemble_chain (depth : Nat) :
    assemble (indexOf (chainDocument depth) .openApi3 true) .openApi3 true =
      .ok ⟨[entryDeclaration (chain depth) (chainType depth)], []⟩ :=
  assemble_single rfl (run_chain _ depth _ _) (promotedDeclarations_of_none rfl)

/-- Every schema more in one another doubles the declared type, though it is four places more. -/
theorem assemble_doubles (depth : Nat) : ∃ assembly,
    assemble (indexOf (chainDocument (depth + 1)) .openApi3 true) .openApi3 true = .ok assembly ∧
    (indexOf (chainDocument (depth + 1)) .openApi3 true).size = 4 * depth + 7 ∧
    assembly.size + 5 = 11 * 2 ^ depth := by
  refine ⟨_, assemble_chain (depth + 1), ?_, ?_⟩
  · have inside := length_locations_chain (depth + 1) ⟨["A"]⟩
    simp only [Index.size, Index.locations, indexOf, chainDocument, Json.locations,
      Json.fieldLocations, List.append_nil, List.length_cons]
    have same : (Pointer.root.child "A") = ⟨["A"]⟩ := rfl
    rw [same, inside]
    omega
  · rw [Assembly.size, List.map_singleton, sizes, sizes, Nat.add_zero, entryDeclaration,
      size_chainType]

theorem assemble_exceeds_cube : ∃ assembly,
    assemble (indexOf (chainDocument 21) .openApi3 true) .openApi3 true = .ok assembly ∧
      10 * ((indexOf (chainDocument 21) .openApi3 true).size + 1) ^ 3 < assembly.size := by
  obtain ⟨assembly, he, places, doubled⟩ := assemble_doubles 20
  refine ⟨assembly, he, ?_⟩
  rw [places]
  omega

end

end ApiTypes.Api
