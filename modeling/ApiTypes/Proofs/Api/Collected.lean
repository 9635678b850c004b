import ApiTypes.Proofs.Api.Plan

/-!
# Operations collected

What a collected operation says of itself. `plan_gives` tells its path, its method and the statuses
of its responses; `operations_distinct` that no two operations of a document have both path and
method in common, as they stand at different places; `operation_plannedAt` that each was planned
for what is written at its place.
-/

namespace ApiTypes.Api

section
variable {α β : Type}

/-- A sequence of two actions has a result when both have one. -/
theorem run_bind_eq_ok {first : PlanM α} {next : α → PlanM β} {before after : NameTable} {b : β} :
    (first >>= next).run before = .ok (b, after) ↔
      ∃ a mid, first.run before = .ok (a, mid) ∧ (next a).run mid = .ok (b, after) := by
  rw [StateT.run_bind]
  cases first.run before with
  | error error => simp [bind, Except.bind]
  | ok result =>
    obtain ⟨a, mid⟩ := result
    constructor
    · intro h
      exact ⟨a, mid, rfl, h⟩
    · rintro ⟨_, _, hf, h⟩
      cases hf
      exact h

theorem run_pure_eq_ok {a b : α} {before after : NameTable} :
    (pure a : PlanM α).run before = .ok (b, after) ↔ a = b ∧ before = after := by
  constructor
  · intro h
    cases h
    exact ⟨rfl, rfl⟩
  · rintro ⟨rfl, rfl⟩
    rfl

end

namespace Operation

variable {index : Index} {before after : NameTable}

/-- The statuses of the responses are keys of the object that lists them, in their order. -/
theorem responsesOf_statuses {name : String} {place : Pointer} {fields : List (String × Json)}
    {responses : List Response}
    (h : (responsesOf index name place fields).run before = .ok (responses, after)) :
    (responses.map (·.status)).Sublist (fields.map (·.1)) := by
  induction fields generalizing before after responses with
  | nil =>
    obtain ⟨rfl, -⟩ := run_pure_eq_ok.1 h
    exact .slnil
  | cons field rest ih =>
    obtain ⟨status, node⟩ := field
    unfold responsesOf at h
    split at h
    · exact (ih h).cons status
    · obtain ⟨part, _, -, h⟩ := run_bind_eq_ok.1 h
      obtain ⟨declared, _, -, h⟩ := run_bind_eq_ok.1 h
      obtain ⟨later, _, hl, h⟩ := run_bind_eq_ok.1 h
      obtain ⟨rfl, -⟩ := run_pure_eq_ok.1 h
      exact (ih hl).cons_cons status

theorem plan_gives {dialect : Dialect} {path method : String} {here : Located}
    {operation : Operation}
    (h : (plan index dialect path method here).run before = .ok (operation, after)) :
    operation.path = path ∧ operation.method = method ∧
      (operation.responses.map (·.status)).Sublist
        ((((here.node.get? "responses").bind Json.object?).getD []).map (·.1)) := by
  unfold plan at h
  obtain ⟨entries, _, -, h⟩ := run_bind_eq_ok.1 h
  obtain ⟨body, _, -, h⟩ := run_bind_eq_ok.1 h
  obtain ⟨parametersNamed, _, -, h⟩ := run_bind_eq_ok.1 h
  obtain ⟨bodyNamed, _, -, h⟩ := run_bind_eq_ok.1 h
  obtain ⟨responses, _, hr, h⟩ := run_bind_eq_ok.1 h
  obtain ⟨rfl, -⟩ := run_pure_eq_ok.1 h
  exact ⟨rfl, rfl, responsesOf_statuses hr⟩

/-- The path and the method tell an operation from all others of a document. -/
def key (operation : Operation) : String × String :=
  (operation.path, operation.method)

end Operation

theorem operationAt?_eq_some {place : Pointer} {path method : String}
    (h : operationAt? place = some (path, method)) : place = ⟨["paths", path, method]⟩ := by
  obtain ⟨segments⟩ := place
  unfold operationAt? at h
  split at h
  · rename_i p m hs
    split at h
    · cases h
      exact congrArg Pointer.mk hs
    · cases h
  · cases h

section
variable {index : Index} {dialect : Dialect} {rawSchema : Bool} {before after : NameTable}

/-- The operation is what planning makes of the node at its place. -/
def Operation.PlannedAt (index : Index) (dialect : Dialect) (here : Located)
    (operation : Operation) : Prop :=
  operationAt? here.place = some operation.key ∧ ∃ before after,
    (plan index dialect operation.path operation.method here).run before = .ok (operation, after)

/-- A candidate that is an operation was planned where it was found. -/
theorem candidateAt_plannedAt {here : Located} {operation : Operation}
    (h : (candidateAt index dialect rawSchema here).run before =
      .ok (some (.operation operation), after)) : operation.PlannedAt index dialect here := by
  unfold candidateAt at h
  split at h
  · obtain ⟨name, _, -, h⟩ := run_bind_eq_ok.1 h
    cases (run_pure_eq_ok.1 h).1
  · split at h
    · cases (run_pure_eq_ok.1 h).1
    · split at h
      · rename_i path method at_place
        obtain ⟨planned, _, hp, h⟩ := run_bind_eq_ok.1 h
        cases (run_pure_eq_ok.1 h).1
        obtain ⟨rfl, rfl, -⟩ := Operation.plan_gives hp
        exact ⟨at_place, _, _, hp⟩
      · cases (run_pure_eq_ok.1 h).1

theorem operationsOf_append (first later : List Candidate) :
    operationsOf (first ++ later) = operationsOf first ++ operationsOf later :=
  List.filterMap_append

/-- The keys of the operations are those of locations, in their order. -/
theorem candidates_keys {locations : List (Pointer × Json)} {collected : List Candidate}
    (h : (candidates index dialect rawSchema locations).run before = .ok (collected, after)) :
    ((operationsOf collected).map Operation.key).Sublist
      (locations.filterMap fun location => operationAt? location.1) := by
  induction locations generalizing before after collected with
  | nil =>
    obtain ⟨rfl, -⟩ := run_pure_eq_ok.1 h
    exact .slnil
  | cons location rest ih =>
    obtain ⟨place, node⟩ := location
    obtain ⟨candidate, _, hc, h⟩ := run_bind_eq_ok.1 h
    obtain ⟨later, _, hl, h⟩ := run_bind_eq_ok.1 h
    obtain ⟨rfl, -⟩ := run_pure_eq_ok.1 h
    have sub := ih hl
    have skip : ((operationsOf later).map Operation.key).Sublist
        (((place, node) :: rest).filterMap fun location => operationAt? location.1) := by
      apply sub.trans
      exact (List.sublist_cons_self _ _).filterMap _
    rw [operationsOf_append]
    cases candidate with
    | none => exact skip
    | some found =>
      cases found with
      | component => exact skip
      | operation operation =>
        have at_place : operationAt? place = some operation.key := (candidateAt_plannedAt hc).1
        simp only [List.filterMap_cons, at_place]
        exact sub.cons_cons operation.key

/-- The operations of a document differ in path or method. -/
theorem operations_distinct {collected : List Candidate}
    (h : (candidates index dialect rawSchema index.locations).run before =
      .ok (collected, after)) :
    ((operationsOf collected).map Operation.key).Nodup := by
  apply (candidates_keys h).nodup
  have places := index.locations_nodup
  rw [List.Nodup, List.pairwise_map] at places
  apply List.Pairwise.filterMap _ _ places
  intro a b differ key ha other hb same
  subst same
  obtain ⟨path, method⟩ := key
  exact differ ((operationAt?_eq_some ha).trans (operationAt?_eq_some hb).symm)

theorem operation_plannedAt {locations : List (Pointer × Json)} {collected : List Candidate}
    (h : (candidates index dialect rawSchema locations).run before = .ok (collected, after))
    {operation : Operation} (hm : .operation operation ∈ collected) :
    ∃ location ∈ locations, operation.PlannedAt index dialect ⟨location.1, location.2⟩ := by
  induction locations generalizing before after collected with
  | nil =>
    obtain ⟨rfl, -⟩ := run_pure_eq_ok.1 h
    cases hm
  | cons location rest ih =>
    obtain ⟨place, node⟩ := location
    obtain ⟨candidate, _, hc, h⟩ := run_bind_eq_ok.1 h
    obtain ⟨later, _, hl, h⟩ := run_bind_eq_ok.1 h
    obtain ⟨rfl, -⟩ := run_pure_eq_ok.1 h
    rcases List.mem_append.1 hm with hm | hm
    · rw [Option.mem_toList.1 hm] at hc
      exact ⟨(place, node), List.mem_cons_self, candidateAt_plannedAt hc⟩
    · obtain ⟨location, hm, planned⟩ := ih hl hm
      exact ⟨location, List.mem_cons_of_mem _ hm, planned⟩

/-- No operation of a document has two responses for one status. -/
theorem statuses_distinct {locations : List (Pointer × Json)} {collected : List Candidate}
    (stand : ∀ location ∈ locations, index.get? location.1 = some location.2)
    (h : (candidates index dialect rawSchema locations).run before = .ok (collected, after))
    {operation : Operation} (hm : .operation operation ∈ collected) :
    (operation.responses.map (·.status)).Nodup := by
  obtain ⟨⟨place, node⟩, hl, -, _, _, planned⟩ := operation_plannedAt h hm
  have stands : index.get? place = some node := stand (place, node) hl
  have statuses := (Operation.plan_gives planned).2.2
  exact statuses.nodup (Index.fieldsUnder_stand "responses" stands rfl).2

end

end ApiTypes.Api
