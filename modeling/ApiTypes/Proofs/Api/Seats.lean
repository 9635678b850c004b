import ApiTypes.Proofs.Api.Outline
import Mathlib.Algebra.Order.BigOperators.Group.List
import Mathlib.Algebra.Order.Ring.Nat
import Mathlib.Data.List.Nodup
import Mathlib.Data.List.Perm.Subperm
import Mathlib.Data.List.ProdSigma

/-!
# How many parts are declared

What a document declares is made of parts: components, and the parameters, bodies and responses of
operations. Each is written at some place, but the parameters of a path are typed again for each of
its operations. A part together with a method is a seat, and no seat is taken twice
(`seats_nodup`), so there are no more parts than eight for each place (`parts_le`).
-/

namespace ApiTypes.Api

open Typing

/-! ## Parts of operations -/

namespace Operation

/-- Where an operation is written. -/
def place (operation : Operation) : Pointer :=
  ⟨["paths", operation.path, operation.method]⟩

/-- The places of what is typed for an operation. Its own place stands for the body. -/
def seats (index : Index) (operation : Operation) : List Pointer :=
  (writtenParameters index operation.place).map (·.place) ++
    operation.place :: operation.responses.map (·.written.place)

/-- How many types are made for an operation at most. -/
def parts (operation : Operation) : Nat :=
  operation.parameters.length + 1 + operation.responses.length

section
variable {index : Index} {place : Pointer}

theorem place_of_mem_listedAt {here : Located} (h : here ∈ listedAt index place) :
    ∃ n, here.place = place.element n := by
  unfold listedAt at h
  split at h
  · obtain ⟨⟨item, n⟩, -, rfl⟩ := List.mem_map.1 h
    exact ⟨n, rfl⟩
  · cases h

theorem element_injective (place : Pointer) : Function.Injective place.element :=
  fun _ _ same => toString_injective (Pointer.child_inj same)

theorem listedAt_nodup (index : Index) (place : Pointer) :
    ((listedAt index place).map (·.place)).Nodup := by
  unfold listedAt
  split
  · rename_i items _
    have numbered : (items.zipIdx.map fun entry =>
        (⟨place.element entry.2, entry.1⟩ : Located)).map (·.place) =
          (items.zipIdx.map (·.2)).map place.element := by
      simp only [List.map_map, Function.comp_def]
    rw [numbered, List.zipIdx_map_snd]
    exact List.Nodup.map (element_injective place) List.nodup_range'
  · exact List.nodup_nil

end

section
variable {index : Index} {dialect : Dialect} {operation : Operation}

theorem length_override_le (parameters : List Parameter) (parameter : Parameter) :
    (override parameters parameter).length ≤ parameters.length + 1 := by
  rw [override, List.length_append, List.length_singleton]
  exact Nat.succ_le_succ (List.length_filter_le _ _)

theorem length_foldl_override_le (written start : List Parameter) :
    (written.foldl override start).length ≤ start.length + written.length := by
  induction written generalizing start with
  | nil => exact Nat.le_refl _
  | cons first rest ih =>
    have later := ih (override start first)
    have := length_override_le start first
    rw [List.foldl_cons, List.length_cons]
    omega

theorem length_mergeParameters_le (found : List Entry) :
    (mergeParameters found).length ≤ found.length := by
  have merged := length_foldl_override_le ((found.filter (!·.isBody)).map Entry.parameter) []
  rw [List.length_map, List.length_nil, Nat.zero_add] at merged
  exact Nat.le_trans merged (List.length_filter_le _ _)

theorem length_entries {written : List Located} {found : List Entry} {before after : NameTable}
    (h : (entries index written).run before = .ok (found, after)) :
    found.length = written.length := by
  induction written generalizing before after found with
  | nil =>
    obtain ⟨rfl, -⟩ := run_pure_eq_ok.1 h
    rfl
  | cons first rest ih =>
    obtain ⟨part, _, -, h⟩ := run_bind_eq_ok.1 h
    obtain ⟨later, _, hl, h⟩ := run_bind_eq_ok.1 h
    obtain ⟨rfl, -⟩ := run_pure_eq_ok.1 h
    rw [List.length_cons, List.length_cons, ih hl]

/-- What is planned for the node at an operation's place. -/
structure Written (index : Index) (dialect : Dialect) (operation : Operation) : Prop where
  fewer : operation.parameters.length ≤ (writtenParameters index operation.place).length
  method : operation.method ∈ methods
  here : (index.get? operation.place).isSome
  statuses : ∃ statuses : List String, statuses.Nodup ∧ operation.responses.map (·.written.place) =
    statuses.map fun status => (operation.place.child "responses").child status

theorem PlannedAt.written {here : Located} (h : operation.PlannedAt index dialect here)
    (stands : here.Stands index) : operation.Written index dialect := by
  obtain ⟨at_place, before, after, planned⟩ := h
  have outlined := plan_outlined planned
  have same : here.place = operation.place := operationAt?_eq_some at_place
  refine ⟨?fewer, ?method, ?here, statuses here.node, ?distinct, ?responses⟩
  case fewer =>
    unfold plan at planned
    obtain ⟨found, _, hf, h⟩ := run_bind_eq_ok.1 planned
    obtain ⟨body, _, -, h⟩ := run_bind_eq_ok.1 h
    obtain ⟨parametersNamed, _, -, h⟩ := run_bind_eq_ok.1 h
    obtain ⟨bodyNamed, _, -, h⟩ := run_bind_eq_ok.1 h
    obtain ⟨responses, _, -, h⟩ := run_bind_eq_ok.1 h
    have parameters : operation.parameters = mergeParameters found := by
      rw [← (run_pure_eq_ok.1 h).1]
    rw [parameters, ← same, ← length_entries hf]
    exact length_mergeParameters_le found
  case method =>
    unfold operationAt? at at_place
    split at at_place
    · split at at_place
      · rename_i known
        cases at_place
        exact List.contains_iff_mem.1 known
      · cases at_place
    · cases at_place
  case here =>
    rw [← same, show index.get? here.place = some here.node from stands]
    rfl
  case distinct => exact (Index.fieldsUnder_stand "responses" stands rfl).2.filter _
  case responses =>
    have places := congrArg (List.map (·.2)) outlined.responses
    simpa only [List.map_map, Function.comp_def, same] using places

theorem parts_le_seats (h : operation.Written index dialect) :
    operation.parts ≤ (operation.seats index).length := by
  have := h.fewer
  simp only [parts, seats, List.length_append, List.length_cons, List.length_map]
  omega

theorem writtenParameters_eq (index : Index) (operation : Operation) :
    writtenParameters index operation.place =
      listedAt index ⟨["paths", operation.path, "parameters"]⟩ ++
        listedAt index ⟨["paths", operation.path, operation.method, "parameters"]⟩ :=
  rfl

/-- Each seat is below the path of the operation. -/
theorem mem_seats (h : operation.Written index dialect) {p : Pointer}
    (hm : p ∈ operation.seats index) :
    ∃ key rest, p.segments = "paths" :: operation.path :: key :: rest := by
  rw [seats, writtenParameters_eq, List.map_append] at hm
  rcases List.mem_append.1 hm with hm | hm
  · rcases List.mem_append.1 hm with hm | hm
    all_goals
      obtain ⟨here, hl, rfl⟩ := List.mem_map.1 hm
      obtain ⟨n, hn⟩ := place_of_mem_listedAt hl
      exact ⟨_, _, congrArg Pointer.segments hn⟩
  · rcases List.mem_cons.1 hm with rfl | hm
    · exact ⟨_, _, rfl⟩
    · obtain ⟨statuses, -, responses⟩ := h.statuses
      rw [responses] at hm
      obtain ⟨status, -, rfl⟩ := List.mem_map.1 hm
      exact ⟨_, _, rfl⟩

theorem seats_nodup (h : operation.Written index dialect) : (operation.seats index).Nodup := by
  obtain ⟨statuses, distinct, responses⟩ := h.statuses
  have numbered {place : Pointer} {p : Pointer} (hm : p ∈ (listedAt index place).map (·.place)) :
      ∃ n : Nat, p.segments = place.segments ++ [toString n] := by
    obtain ⟨here, hl, rfl⟩ := List.mem_map.1 hm
    obtain ⟨n, hn⟩ := place_of_mem_listedAt hl
    exact ⟨n, congrArg Pointer.segments hn⟩
  rw [seats, writtenParameters_eq, List.map_append, responses]
  refine List.nodup_append.2 ⟨List.nodup_append.2 ⟨listedAt_nodup _ _, listedAt_nodup _ _, ?_⟩,
    List.nodup_cons.2 ⟨?_, ?_⟩, ?_⟩
  · intro p hp q hq same
    obtain ⟨m, hm⟩ := numbered hp
    obtain ⟨n, hn⟩ := numbered hq
    have := congrArg List.length (hm.symm.trans (same ▸ hn))
    simp at this
  · intro hm
    obtain ⟨status, -, same⟩ := List.mem_map.1 hm
    have := congrArg (fun p => p.segments.length) same
    simp [place, Pointer.child] at this
  · exact List.Nodup.map (fun _ _ same => Pointer.child_inj same) distinct
  · intro p hp q hq same
    subst same
    rcases List.mem_append.1 hp with hp | hp
    · obtain ⟨m, hm⟩ := numbered hp
      rcases List.mem_cons.1 hq with rfl | hq
      · simp [place] at hm
      · obtain ⟨status, -, rfl⟩ := List.mem_map.1 hq
        simp [place, Pointer.child] at hm
    · obtain ⟨m, hm⟩ := numbered hp
      rcases List.mem_cons.1 hq with rfl | hq
      · simp [place] at hm
      · obtain ⟨status, -, rfl⟩ := List.mem_map.1 hq
        simp [place, Pointer.child] at hm

theorem seats_stand (h : operation.Written index dialect) (stands : operation.Stands index) :
    ∀ p ∈ operation.seats index, (index.get? p).isSome := by
  intro p hm
  have written {here : Located} (h : here.Stands index) : (index.get? here.place).isSome := by
    rw [show index.get? here.place = some here.node from h]
    rfl
  rcases List.mem_append.1 hm with hm | hm
  · obtain ⟨here, hl, rfl⟩ := List.mem_map.1 hm
    exact written (writtenParameters_stand here hl)
  · rcases List.mem_cons.1 hm with rfl | hm
    · exact h.here
    · obtain ⟨response, hr, rfl⟩ := List.mem_map.1 hm
      exact written (stands.responses response hr).written

end

end Operation

/-! ## Parts of documents -/

namespace Candidate

/-- Where a candidate is written. -/
def place : Candidate → Pointer
  | .component here _ _ => here.place
  | .operation planned => planned.place

/-- What is typed for a candidate, as places with methods. A component is typed once. -/
def seats (index : Index) : Candidate → List (Pointer × String)
  | .component here _ _ => [(here.place, "get")]
  | .operation planned => (planned.seats index).map (·, planned.method)

def parts : Candidate → Nat
  | .component _ _ _ => 1
  | .operation planned => planned.parts

/-- What is known of a candidate that was collected. -/
def Collected (index : Index) (dialect : Dialect) (rawSchema : Bool) : Candidate → Prop
  | .component here _ _ => (componentKind? dialect rawSchema here.place).isSome
  | .operation planned => planned.Written index dialect

end Candidate

/-- The place of the candidate that a seat is taken by. -/
def holderOf (seat : Pointer × String) : Pointer :=
  match seat.1.segments with
  | "paths" :: path :: _ :: _ => ⟨["paths", path, seat.2]⟩
  | _ => seat.1

section
variable {index : Index} {dialect : Dialect} {rawSchema : Bool}

theorem holderOf_component {place : Pointer} (method : String)
    (h : (componentKind? dialect rawSchema place).isSome) : holderOf (place, method) = place := by
  unfold holderOf
  split
  · rename_i path key rest segments
    unfold componentKind? at h
    split at h
    · split at h
      · rename_i one
        have short : place.segments.length = 1 := one
        rw [show place.segments = _ from segments] at short
        cases short
      · cases h
    · rw [show place.segments = _ from segments] at h
      cases dialect <;> cases h
  · rfl

theorem Candidate.Collected.holder_of_mem {candidate : Candidate}
    (h : candidate.Collected index dialect rawSchema) {seat : Pointer × String}
    (hm : seat ∈ candidate.seats index) : holderOf seat = candidate.place := by
  cases candidate with
  | component here kind name =>
    rw [List.mem_singleton.1 hm]
    exact holderOf_component _ h
  | operation planned =>
    obtain ⟨p, hp, rfl⟩ := List.mem_map.1 hm
    obtain ⟨key, rest, segments⟩ := Operation.mem_seats h hp
    unfold holderOf
    rw [segments]
    rfl

theorem Candidate.Collected.seats_distinct {candidate : Candidate}
    (h : candidate.Collected index dialect rawSchema) : (candidate.seats index).Nodup := by
  cases candidate with
  | component here kind name => exact List.nodup_singleton _
  | operation planned =>
    exact (Operation.seats_nodup h).map fun _ _ same => congrArg Prod.fst same

theorem Candidate.Collected.parts_le {candidate : Candidate}
    (h : candidate.Collected index dialect rawSchema) :
    candidate.parts ≤ (candidate.seats index).length := by
  cases candidate with
  | component here kind name => exact Nat.le_refl _
  | operation planned =>
    rw [Candidate.seats, List.length_map]
    exact Operation.parts_le_seats h

theorem Candidate.Collected.seats_among {candidate : Candidate}
    (h : candidate.Collected index dialect rawSchema)
    (stands : candidate.Stands index) {seat : Pointer × String} (hm : seat ∈ candidate.seats index) :
    (index.get? seat.1).isSome ∧ seat.2 ∈ methods := by
  cases candidate with
  | component here kind name =>
    rw [List.mem_singleton.1 hm]
    have stands : index.get? here.place = some here.node := stands
    exact ⟨by rw [stands]; rfl, show "get" ∈ methods by decide⟩
  | operation planned =>
    obtain ⟨p, hp, rfl⟩ := List.mem_map.1 hm
    have written : planned.Written index dialect := h
    exact ⟨Operation.seats_stand written stands p hp, written.method⟩

variable {before after : NameTable}

theorem candidateAt_place {here : Located} {candidate : Option Candidate} (stands : here.Stands index)
    (h : (candidateAt index dialect rawSchema here).run before = .ok (candidate, after)) :
    ∀ c ∈ candidate, c.place = here.place ∧ c.Collected index dialect rawSchema := by
  rintro (⟨there, kind, name⟩ | planned) rfl
  · unfold candidateAt at h
    split at h
    · rename_i kind hk
      obtain ⟨name, _, -, h⟩ := run_bind_eq_ok.1 h
      cases (run_pure_eq_ok.1 h).1
      exact ⟨rfl, Option.isSome_iff_exists.2 ⟨kind, hk⟩⟩
    · split at h
      · cases (run_pure_eq_ok.1 h).1
      · split at h
        · obtain ⟨operation, _, -, h⟩ := run_bind_eq_ok.1 h
          cases (run_pure_eq_ok.1 h).1
        · cases (run_pure_eq_ok.1 h).1
  · have plannedAt := candidateAt_plannedAt h
    exact ⟨(operationAt?_eq_some plannedAt.1).symm, plannedAt.written stands⟩

/-- Candidates are collected from different places. -/
theorem candidates_places {locations : List (Pointer × Json)} {collected : List Candidate}
    (stand : ∀ location ∈ locations, index.get? location.1 = some location.2)
    (h : (candidates index dialect rawSchema locations).run before = .ok (collected, after)) :
    (collected.map Candidate.place).Sublist (locations.map (·.1)) ∧
      ∀ candidate ∈ collected, candidate.Collected index dialect rawSchema := by
  induction locations generalizing before after collected with
  | nil =>
    obtain ⟨rfl, -⟩ := run_pure_eq_ok.1 h
    exact ⟨.slnil, by simp⟩
  | cons location rest ih =>
    obtain ⟨place, node⟩ := location
    obtain ⟨candidate, _, hc, h⟩ := run_bind_eq_ok.1 h
    obtain ⟨later, _, hl, h⟩ := run_bind_eq_ok.1 h
    obtain ⟨rfl, -⟩ := run_pure_eq_ok.1 h
    obtain ⟨sub, others⟩ := ih (fun l hm => stand l (List.mem_cons_of_mem _ hm)) hl
    have stands : Located.Stands index ⟨place, node⟩ := stand _ List.mem_cons_self
    have here := candidateAt_place stands hc
    cases candidate with
    | none => exact ⟨sub.cons place, others⟩
    | some first =>
      obtain ⟨same, collected⟩ := here first rfl
      refine ⟨?_, List.forall_mem_cons.2 ⟨collected, others⟩⟩
      rw [Option.toList_some, List.singleton_append, List.map_cons, List.map_cons, same]
      exact sub.cons_cons place

section
variable {collected : List Candidate} (places : (collected.map Candidate.place).Nodup)
  (h : ∀ candidate ∈ collected, candidate.Collected index dialect rawSchema)
include places h

/-- A seat tells its candidate, so no two candidates share one. -/
theorem seats_nodup : (collected.flatMap (Candidate.seats index)).Nodup := by
  refine List.nodup_flatMap.2 ⟨fun candidate hm => (h candidate hm).seats_distinct, ?_⟩
  refine (List.pairwise_map.1 places).imp_of_mem fun {a b} ha hb differ seat inA inB => differ ?_
  rw [← (h a ha).holder_of_mem inA, ← (h b hb).holder_of_mem inB]

/-- There are no more parts than eight for each place, one for each method. -/
theorem parts_le (stand : ∀ candidate ∈ collected, candidate.Stands index) :
    (collected.map Candidate.parts).sum ≤ 8 * index.size := by
  have among : collected.flatMap (Candidate.seats index) ⊆
      index.locations.map (·.1) ×ˢ methods := by
    intro seat hm
    obtain ⟨candidate, hc, hm⟩ := List.mem_flatMap.1 hm
    obtain ⟨here, known⟩ := (h candidate hc).seats_among (stand candidate hc) hm
    obtain ⟨node, hn⟩ := Option.isSome_iff_exists.1 here
    exact List.mem_product.2 ⟨List.mem_map_of_mem (f := (·.1)) (Index.mem_locations hn), known⟩
  calc (collected.map Candidate.parts).sum
    _ ≤ (collected.map fun candidate => (candidate.seats index).length).sum :=
      List.sum_le_sum fun candidate hm => (h candidate hm).parts_le
    _ = (collected.flatMap (Candidate.seats index)).length := List.length_flatMap.symm
    _ ≤ (index.locations.map (·.1) ×ˢ methods).length :=
      (List.subperm_of_subset (seats_nodup places h) among).length_le
    _ = 8 * index.size := by
      rw [List.length_product, List.length_map, Nat.mul_comm]
      rfl

end

end

end ApiTypes.Api
