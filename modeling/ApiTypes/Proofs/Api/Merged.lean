import ApiTypes.Proofs.Api.Links
import Mathlib.Data.List.Induction

/-!
# Parameters merged

The parameters of an operation are listed in two places, as such or by reference, and listed twice
when a later entry overrides an earlier one. What planning makes of the lists, told from the entries
alone:

* `lastEntries`: the entries that are not overridden;
* `mergeParameters_eq`: adding parameters one by one, each in place of those with its name and
  location, leaves the last entries;
* `BodyFrom`: where the body of an operation comes from;
* `plan_collected`: a planned operation has these parameters and this body;
* `operations_planned`: the operations of a document are those planned at its places for them.
-/

namespace ApiTypes.Api

namespace Operation

/-! ## Entries -/

def Entry.name (entry : Entry) : String :=
  (entry.part.text? "name").getD ""

def Entry.required (entry : Entry) : Bool :=
  entry.part.flag "required"

/-- Parameters in this location have a group. -/
def Entry.isGrouped (entry : Entry) : Bool :=
  ["path", "query", "header", "cookie", "formData"].contains entry.location

/-- Both parameters have the same name and the same location. -/
def Entry.overrides (later entry : Entry) : Bool :=
  later.name == entry.name && later.location == entry.location

/-- The parameters listed for an operation that are no body. -/
def listedParameters (index : Index) (place : Pointer) : List Entry :=
  (listed index place).filter (!·.isBody)

/-- The entries that no later one overrides. -/
def lastEntries : List Entry → List Entry
  | [] => []
  | entry :: rest =>
    if rest.any fun later => later.overrides entry then lastEntries rest
    else entry :: lastEntries rest

/-- The parameters of an operation that count: they are listed and not overridden. -/
def lastParameters (index : Index) (place : Pointer) : List Entry :=
  lastEntries (listedParameters index place)

theorem overrides_comm (a b : Entry) : a.overrides b = b.overrides a := by
  simp only [Entry.overrides, BEq.comm]

/-- One more entry overrides what it does of those before. -/
theorem lastEntries_concat (entries : List Entry) (entry : Entry) :
    lastEntries (entries ++ [entry]) =
      (lastEntries entries).filter (fun other => !other.overrides entry) ++ [entry] := by
  induction entries with
  | nil => rfl
  | cons first rest ih =>
    rw [List.cons_append, lastEntries, lastEntries, List.any_append, ih, List.any_cons,
      List.any_nil, Bool.or_false, overrides_comm entry first]
    cases overridden : rest.any fun later => later.overrides first with
    | true => rfl
    | false => cases last : first.overrides entry <;> simp [last]

theorem override_parameters (entries : List Entry) (entry : Entry) :
    override (entries.map Entry.parameter) entry.parameter =
      (entries.filter fun other => !other.overrides entry).map Entry.parameter ++
        [entry.parameter] := by
  rw [override, List.filter_map]
  rfl

/-- Of the parameters with one name and location the last is left, where it is listed. -/
theorem mergeParameters_eq (found : List Entry) :
    mergeParameters found = (lastEntries (found.filter (!·.isBody))).map Entry.parameter := by
  have merged (entries : List Entry) :
      (entries.map Entry.parameter).foldl override [] =
        (lastEntries entries).map Entry.parameter := by
    induction entries using List.reverseRecOn with
    | nil => rfl
    | append_singleton entries entry ih =>
      rw [List.map_append, List.map_singleton, List.foldl_concat, ih, override_parameters,
        lastEntries_concat, List.map_append, List.map_singleton]
  exact merged _

theorem lastEntries_subset (entries : List Entry) : lastEntries entries ⊆ entries := by
  induction entries with
  | nil => exact List.Subset.refl _
  | cons entry rest ih =>
    rw [lastEntries]
    split
    · exact List.subset_cons_of_subset _ ih
    · exact List.cons_subset_cons _ ih

/-- No location is lost with what is overridden. -/
theorem any_location_lastEntries (entries : List Entry) (location : String) :
    (lastEntries entries).any (·.location == location) = entries.any (·.location == location) := by
  induction entries with
  | nil => rfl
  | cons entry rest ih =>
    rw [lastEntries, List.any_cons]
    split
    · rename_i overridden
      obtain ⟨later, hl, overriding⟩ := List.any_eq_true.1 overridden
      obtain ⟨-, same⟩ := Bool.and_eq_true_iff.1 overriding
      rw [ih, ← eq_of_beq same]
      cases here : later.location == location with
      | false => rfl
      | true => exact List.any_eq_true.2 ⟨later, hl, here⟩
    · rw [List.any_cons, ih]

/-! ## Planning -/

section
variable {index : Index} {dialect : Dialect} {here : Located} {before after : NameTable}

/-- Where the body of an operation comes from: what is under `requestBody` where the dialect has
that, or else the last parameter that is a body, if there is one. -/
inductive BodyFrom (index : Index) (dialect : Dialect) (here : Located) : Option Body → Prop
  | requestBody {node part : Json} (has : dialect = .openApi3)
      (hn : here.node.get? "requestBody" = some node)
      (leads : deref index ⟨here.place.child "requestBody", node⟩ = .ok part) :
      BodyFrom index dialect here (some {
        written := ⟨here.place.child "requestBody", node⟩
        part := .requestBody
        required := part.flag "required"
        doc := Schema.doc? part })
  | parameter (absent : dialect = .openApi3 → here.node.get? "requestBody" = none) :
      BodyFrom index dialect here
        (((listed index here.place).filter Entry.isBody).getLast?.map Entry.body)

/-- What is collected for an operation is what is listed at its place. -/
structure Collected (index : Index) (dialect : Dialect) (here : Located) (operation : Operation) :
    Prop where
  written : (listed index here.place).map (·.written) = writtenParameters index here.place
  parameters : operation.parameters = (lastParameters index here.place).map Entry.parameter
  body : BodyFrom index dialect here (operation.body.map (·.1))

theorem bodyOf_from {body : Option Body}
    (h : (bodyOf index dialect here (listed index here.place)).run before = .ok (body, after)) :
    BodyFrom index dialect here body := by
  unfold bodyOf at h
  split at h
  · rename_i node hn
    obtain ⟨part, _, hp, h⟩ := run_bind_eq_ok.1 h
    obtain ⟨rfl, -⟩ := run_pure_eq_ok.1 h
    exact .requestBody rfl hn (lookUp_gives hp).1
  · rename_i other
    obtain ⟨rfl, -⟩ := run_pure_eq_ok.1 h
    refine .parameter fun has => ?_
    subst has
    exact Option.eq_none_iff_forall_ne_some.2 fun node hn => other node rfl hn

theorem plan_collected {path method : String} {operation : Operation}
    (h : (plan index dialect path method here).run before = .ok (operation, after)) :
    operation.Collected index dialect here := by
  unfold plan at h
  obtain ⟨found, _, hf, h⟩ := run_bind_eq_ok.1 h
  obtain ⟨body, _, hb, h⟩ := run_bind_eq_ok.1 h
  obtain ⟨parametersNamed, _, -, h⟩ := run_bind_eq_ok.1 h
  obtain ⟨bodyNamed, _, hn, h⟩ := run_bind_eq_ok.1 h
  obtain ⟨responses, _, -, h⟩ := run_bind_eq_ok.1 h
  obtain ⟨rfl, -⟩ := run_pure_eq_ok.1 h
  obtain rfl := entries_listed hf
  refine ⟨(entries_give hf).1, mergeParameters_eq _, ?_⟩
  -- a body that there is has been named
  have named : (body.bind fun body => bodyNamed.map fun named => (body, named)).map (·.1) = body := by
    have place := nameIf_gives hn
    cases body with
    | none => rfl
    | some body =>
      cases bodyNamed with
      | none => cases place
      | some named => rfl
  rw [named]
  exact bodyOf_from hb

end

/-- An operation has parameters when one is listed that is no body. -/
theorem hasParameters_iff {index : Index} {place : Pointer} :
    hasParameters index place = true ↔ listedParameters index place ≠ [] := by
  rw [hasParameters, writtenParts_eq, List.any_map, List.any_eq_true, listedParameters, ne_eq,
    List.filter_eq_nil_iff]
  simp [isBody_eq]

end Operation

/-! ## Operations of a document -/

/-- The operations of a document at their places, in document order. A bare map of schemas has
none. -/
def operationsAt (index : Index) (rawSchema : Bool) : List Located :=
  if rawSchema then []
  else
    (index.locations.filter fun location => (operationAt? location.1).isSome).map fun location =>
      ⟨location.1, location.2⟩

section
variable {index : Index} {dialect : Dialect} {rawSchema : Bool} {before after : NameTable}

theorem mem_operationsAt {here : Located} (hm : here ∈ operationsAt index rawSchema) :
    here.Stands index ∧ ∃ path method, here.place = ⟨["paths", path, method]⟩ := by
  unfold operationsAt at hm
  split at hm
  · cases hm
  · obtain ⟨location, hl, rfl⟩ := List.mem_map.1 hm
    obtain ⟨hl, operation⟩ := List.mem_filter.1 hl
    obtain ⟨⟨path, method⟩, at_place⟩ := Option.isSome_iff_exists.1 operation
    exact ⟨Index.get?_of_mem_locations hl, path, method, operationAt?_eq_some at_place⟩

/-- A place that is of an operation gives that operation, and no other place gives one. -/
theorem candidateAt_operations {here : Located} {candidate : Option Candidate}
    (h : (candidateAt index dialect false here).run before = .ok (candidate, after)) :
    match operationAt? here.place with
    | none => operationsOf candidate.toList = []
    | some _ => ∃ operation, operationsOf candidate.toList = [operation] ∧
      operation.PlannedAt index dialect here := by
  have keys := candidateAt_keys h
  split
  · rename_i none
    rw [none] at keys
    exact List.map_eq_nil_iff.1 keys
  · rename_i key some
    rw [some] at keys
    obtain ⟨operation, same, -⟩ := List.map_eq_singleton_iff.1 keys
    have member : operation ∈ operationsOf candidate.toList := same ▸ List.mem_singleton_self _
    rw [Option.mem_toList.1 (mem_operationsOf member)] at h
    exact ⟨operation, same, candidateAt_plannedAt h⟩

theorem operations_planned_among {locations : List (Pointer × Json)} {collected : List Candidate}
    (h : (candidates index dialect false locations).run before = .ok (collected, after)) :
    List.Forall₂ (fun location operation =>
        operation.PlannedAt index dialect ⟨location.1, location.2⟩)
      (locations.filter fun location => (operationAt? location.1).isSome)
      (operationsOf collected) := by
  induction locations generalizing before after collected with
  | nil =>
    obtain ⟨rfl, -⟩ := run_pure_eq_ok.1 h
    exact .nil
  | cons location rest ih =>
    obtain ⟨candidate, _, hc, h⟩ := run_bind_eq_ok.1 h
    obtain ⟨later, _, hl, h⟩ := run_bind_eq_ok.1 h
    obtain ⟨rfl, -⟩ := run_pure_eq_ok.1 h
    have first := candidateAt_operations hc
    rw [operationsOf_append]
    cases at_place : operationAt? location.1 with
    | none =>
      simp only [at_place] at first
      rw [first, List.filter_cons_of_neg (by simp [at_place])]
      exact ih hl
    | some key =>
      simp only [at_place] at first
      obtain ⟨operation, same, planned⟩ := first
      rw [same, List.filter_cons_of_pos (by simp [at_place])]
      exact .cons planned (ih hl)

theorem operationsOf_raw {locations : List (Pointer × Json)} {collected : List Candidate}
    (h : (candidates index dialect true locations).run before = .ok (collected, after)) :
    operationsOf collected = [] := by
  induction locations generalizing before after collected with
  | nil =>
    obtain ⟨rfl, -⟩ := run_pure_eq_ok.1 h
    rfl
  | cons location rest ih =>
    obtain ⟨candidate, _, hc, h⟩ := run_bind_eq_ok.1 h
    obtain ⟨later, _, hl, h⟩ := run_bind_eq_ok.1 h
    obtain ⟨rfl, -⟩ := run_pure_eq_ok.1 h
    rw [operationsOf_append, ih hl, List.append_nil]
    unfold candidateAt at hc
    split at hc
    · obtain ⟨name, _, -, hc⟩ := run_bind_eq_ok.1 hc
      obtain ⟨rfl, -⟩ := run_pure_eq_ok.1 hc
      rfl
    · obtain ⟨rfl, -⟩ := run_pure_eq_ok.1 hc
      rfl

/-- The operations collected are those of the document, each planned at its place. -/
theorem operations_planned {collected : List Candidate}
    (h : (candidates index dialect rawSchema index.locations).run before =
      .ok (collected, after)) :
    List.Forall₂ (fun here operation => operation.PlannedAt index dialect here)
      (operationsAt index rawSchema) (operationsOf collected) := by
  cases rawSchema with
  | true =>
    rw [operationsOf_raw h]
    exact .nil
  | false => exact List.forall₂_map_left_iff.2 (operations_planned_among h)

end

end ApiTypes.Api
