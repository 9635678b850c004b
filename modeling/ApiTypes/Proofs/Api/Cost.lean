import ApiTypes.Proofs.Api.Declared
import ApiTypes.Proofs.Typing.Cost

/-!
# What declaring costs

A declared type takes no more than a schema of the document may weigh, and what the expansions made
for it paid.

* `Spends`: so much an action takes, closed under sequencing;
* `fits_groups`: grouping parameters adds no more than one to each of them, and one;
* `allDeclarations_spends`, `promotedDeclarations_spends`: what the declarations of candidates and of
  promoted places take.
-/

namespace ApiTypes.Api

open Typing TypeExpr

section
variable {α β : Type} (budget : Budget)

/-- When the action has a result, it takes no more than `cost` and what the expansions made for it
paid. -/
def Spends (action : TypingM α) (cost : Nat) (fits : α → Nat → Prop) : Prop :=
  ∀ state a after, action.run.run state = (.ok a, after) → state.Grows after ∧
    (after.Within budget.limit → ∃ k, fits a k ∧ k + budget.paid state ≤ cost + budget.paid after)

variable {budget} {action : TypingM α} {cost : Nat} {fits : α → Nat → Prop}

theorem Makes.spends {path : List Pointer} {level : Nat} {typed : State → α → Prop}
    (h : Makes budget path level action cost fits typed) : Spends budget action cost fits := by
  intro state a after he
  obtain ⟨steady, paid⟩ := h state a after he
  refine ⟨steady.grows, fun within => ?_⟩
  obtain ⟨k, calm, -, paid, holds⟩ := paid within
  exact ⟨k, (holds after (.refl path after)).1, by omega⟩

theorem warn_spends (kind : WarningKind) (place : Pointer) (message : String) :
    Spends budget (warn kind place message) 0 fun _ _ => True :=
  have made : Makes budget [] 0 (warn kind place message) 0 (fun _ _ => True) _ := warn_makes kind message
  Makes.spends made

theorem Spends.pure {a : α} (cost : Nat) (h : fits a cost) : Spends budget (Pure.pure a) cost fits := by
  intro state b after he
  cases he
  exact ⟨.refl state, fun _ => ⟨cost, h, Nat.le_refl _⟩⟩

theorem Spends.bind {next : α → TypingM β} {more : Nat} {fits' : β → Nat → Prop}
    (ha : Spends budget action cost fits)
    (hn : ∀ a, Spends budget (next a) more fun b m => ∀ k, fits a k → fits' b (k + m)) :
    Spends budget (action >>= next) (cost + more) fits' := by
  intro state b after he
  rcases hr : action.run.run state with ⟨_ | a, between⟩
  · rw [run_bind_of_error hr] at he
    cases he
  · rw [run_bind_of_ok hr] at he
    obtain ⟨first, ofFirst⟩ := ha state a between hr
    obtain ⟨second, ofSecond⟩ := hn a between b after he
    refine ⟨first.trans second, fun within => ?_⟩
    obtain ⟨k, fit, paid⟩ := ofFirst (within.earlier second)
    obtain ⟨m, fit', paid'⟩ := ofSecond within
    exact ⟨k + m, fit' k fit, by omega⟩

theorem Spends.imp {cost' : Nat} {fits' : α → Nat → Prop} (h : Spends budget action cost fits)
    (le : cost ≤ cost') (hf : ∀ a k, fits a k → fits' a k) : Spends budget action cost' fits' := by
  intro state a after he
  obtain ⟨grows, paid⟩ := h state a after he
  refine ⟨grows, fun within => ?_⟩
  obtain ⟨k, fit, paid⟩ := paid within
  exact ⟨k, hf a k fit, by omega⟩

end

/-- What the types of declarations take. -/
abbrev DeclarationsFit (declarations : List Declaration) (k : Nat) : Prop :=
  FitAll (declarations.map (·.type)) k

section
variable {budget : Budget} {cost : Nat}

theorem Spends.nothing : Spends budget (Pure.pure []) cost DeclarationsFit :=
  .pure cost (fitAll_nil.mono (Nat.zero_le cost))

/-- Declaring a type takes what the type does. -/
theorem Spends.declared {action : TypingM TypeExpr} (h : Spends budget action cost Fits)
    {declare : TypeExpr → Declaration} (same : ∀ type, (declare type).type = type) :
    Spends budget (do let type ← action; return [declare type]) cost DeclarationsFit :=
  h.bind fun type => .pure 0 fun k fits => by
    rw [DeclarationsFit, List.map_singleton, same]
    exact fitAll_singleton.2 fits

end

/-! ## Groups of parameters -/

/-- Items of different locations are different items. -/
theorem sum_filter_le {α : Type} (location : α → String) (cost : α → Nat) {locations : List String}
    (distinct : locations.Nodup) (items : List α) :
    (locations.map fun l => ((items.filter (location · == l)).map cost).sum).sum ≤
      (items.map cost).sum := by
  induction locations generalizing items with
  | nil => exact Nat.zero_le _
  | cons first rest ih =>
    obtain ⟨new, distinct⟩ := List.nodup_cons.1 distinct
    have others : ∀ l ∈ rest, items.filter (location · == l) =
        (items.filter fun item => !(location item == first)).filter (location · == l) := by
      intro l hm
      rw [List.filter_filter]
      refine List.filter_congr fun item _ => ?_
      by_cases there : location item = l
      · have other : l ≠ first := fun same => new (same ▸ hm)
        simp [there, other]
      · simp [there]
    have later := ih distinct (items.filter fun item => !(location item == first))
    have all := ((List.filter_append_perm (location · == first) items).map cost).sum_eq
    rw [List.map_append, List.sum_append] at all
    have rest_eq : (rest.map fun l => ((items.filter (location · == l)).map cost).sum) = _ :=
      List.map_congr_left fun l hm => by rw [others l hm]
    rw [List.map_cons, List.sum_cons, rest_eq, ← all]
    exact Nat.add_le_add_left later _

theorem memberSizes_parameters (typed : List TypedParameter) :
    memberSizes (typed.map TypedParameter.member) = sizes (typed.map (·.type)) := by
  induction typed with
  | nil => rfl
  | cons first rest ih =>
    rw [List.map_cons, memberSizes, ih]
    rfl

theorem sum_sizes (typed : List TypedParameter) :
    (typed.map fun t => t.type.size + 1).sum = sizes (typed.map (·.type)) + typed.length := by
  induction typed with
  | nil => rfl
  | cons first rest ih =>
    rw [List.map_cons, List.sum_cons, ih, List.map_cons, sizes, List.length_cons]
    omega

section
variable {typed : List TypedParameter}

theorem memberSize_group {location : String} {member : Member}
    (h : parameterGroup? typed location = some member) : memberSize member ≤
      ((typed.filter (·.parameter.location == location)).map fun t => t.type.size + 1).sum := by
  unfold parameterGroup? at h
  dsimp only at h
  split at h
  · cases h
  · rename_i some
    cases h
    have := List.length_pos_of_ne_nil fun empty => some (List.isEmpty_iff.2 empty)
    rw [Member.plain, memberSize, size, memberSizes_parameters, sum_sizes]
    omega

theorem memberSizes_groups (locations : List String) :
    memberSizes (locations.filterMap (parameterGroup? typed)) ≤ (locations.map fun l =>
      ((typed.filter (·.parameter.location == l)).map fun t => t.type.size + 1).sum).sum := by
  induction locations with
  | nil => exact Nat.le_refl _
  | cons location rest ih =>
    rw [List.map_cons, List.sum_cons]
    cases hg : parameterGroup? typed location with
    | none =>
      rw [List.filterMap_cons_none hg]
      exact Nat.le_trans ih (Nat.le_add_left _ _)
    | some member =>
      rw [List.filterMap_cons_some hg, memberSizes]
      exact Nat.add_le_add (memberSize_group hg) ih

/-- A parameter of a known location is in its group. -/
theorem widening_le_groups {t : TypedParameter} (h : t ∈ typed) (known : t.parameter.isKnown = true) :
    t.type.widening ≤ (object (parameterLocations.filterMap (parameterGroup? typed))).widening := by
  have inGroup : t ∈ typed.filter (·.parameter.location == t.parameter.location) :=
    List.mem_filter.2 ⟨h, by simp⟩
  have group : parameterGroup? typed t.parameter.location = some (.plain t.parameter.location
      (.object ((typed.filter (·.parameter.location == t.parameter.location)).map
        TypedParameter.member))
      (!(typed.filter (·.parameter.location == t.parameter.location)).any (·.parameter.required))) := by
    unfold parameterGroup?
    dsimp only
    exact if_neg fun empty => List.ne_nil_of_mem inGroup (List.isEmpty_iff.1 empty)
  have listed := List.mem_filterMap.2 ⟨_, List.contains_iff_mem.1 known, group⟩
  have member : t.member ∈ (typed.filter (·.parameter.location == t.parameter.location)).map
      TypedParameter.member := List.mem_map_of_mem inGroup
  exact Nat.le_trans (widening_le_of_property member) (widening_le_of_property listed)

theorem fits_groups (known : ∀ t ∈ typed, t.parameter.isKnown = true) {k : Nat}
    (fit : FitAll (typed.map (·.type)) k) :
    (object (parameterLocations.filterMap (parameterGroup? typed))).Fits (k + (typed.length + 1)) := by
  refine fits_around fit ?_ (wideningOfAll_le.2 fun type hm => ?_)
  · have groups : memberSizes (parameterLocations.filterMap (parameterGroup? typed)) ≤ _ :=
      memberSizes_groups parameterLocations
    have once := sum_filter_le (·.parameter.location) (fun t => t.type.size + 1)
      (show parameterLocations.Nodup by decide) typed
    rw [sum_sizes] at once
    rw [size]
    omega
  · obtain ⟨t, ht, rfl⟩ := List.mem_map.1 hm
    exact widening_le_groups ht (known t ht)

end

/-! ## Declarations -/

section
variable {index : Index} {dialect : Dialect} {budget : Budget} (covers : budget.Covers index)
include covers

theorem charge_pos : 0 < budget.charge :=
  Nat.lt_of_lt_of_le Nat.zero_lt_two (Nat.le_trans (Json.two_le_weight _ _) covers.charge)

theorem typeOfRoot_spends {node : Json} {place : Pointer} (h : index.get? place = some node) :
    Spends budget (typeOfRoot index node place) budget.charge Fits :=
  (Makes.spends (typeAt_makes covers [place] h)).imp
    (Nat.le_trans (Index.load_le_root _ h) covers.charge) fun _ _ fits => fits

theorem partType_spends {part : Part} {written : Located} (stands : written.Stands index) :
    Spends budget (partType index dialect part written) budget.charge Fits := by
  have small {type : TypeExpr} (h : type.size = 1) : type.Fits budget.charge :=
    fits_of_size_le (h ▸ charge_pos covers)
  intro state
  have ends := followChain_ends state.names.get? [] written stands (by simp)
  unfold partType
  rw [run_get]
  dsimp only
  split
  · intro type after failed
    cases failed
  · exact Spends.pure _ (small (by rw [size])) state
  · rename_i here he
    rw [he] at ends
    have source := typeSource_stands dialect part ends.2.1
    split
    · rename_i schema hs
      rw [hs] at source
      exact typeOfRoot_spends covers source state
    · rename_i type hs
      rw [hs] at source
      refine Spends.pure _ (small ?_) state
      rcases source with rfl | rfl <;> rfl

theorem typedParameters_spends {parameters : List Parameter}
    (stand : ∀ parameter ∈ parameters, parameter.Stands index) :
    Spends budget (typedParameters index dialect parameters) (parameters.length * budget.charge)
      fun typed k => FitAll (typed.map (·.type)) k ∧ typed.length ≤ parameters.length ∧
        ∀ t ∈ typed, t.parameter.isKnown = true := by
  induction parameters with
  | nil => exact (Spends.pure 0 ⟨fitAll_nil, Nat.le_refl 0, by simp⟩).imp (Nat.zero_le _) fun _ _ h => h
  | cons parameter rest ih =>
    have first := stand parameter List.mem_cons_self
    have later := ih fun p hm => stand p (List.mem_cons_of_mem _ hm)
    unfold typedParameters
    split
    · rename_i known
      refine ((partType_spends covers first.written).bind fun type => later.bind fun typed =>
        .pure 0 ?_).imp (by rw [List.length_cons, Nat.succ_mul]; omega) fun _ _ h => h
      rintro m ⟨fit, fewer, all⟩ k fits
      refine ⟨FitAll.cons fits fit, Nat.succ_le_succ fewer, ?_⟩
      exact List.forall_mem_cons.2 ⟨known, all⟩
    · refine ((warn_spends _ _ _).bind fun _ => later.imp (Nat.le_refl _) ?_).imp
        (by rw [List.length_cons, Nat.succ_mul]; omega) fun _ _ h => h
      rintro typed m ⟨fit, fewer, all⟩ k -
      exact ⟨fit.mono (Nat.le_add_left _ _), Nat.le_succ_of_le fewer, all⟩

/-! ### Candidates -/

/-- What the declarations of an operation may take. -/
def Operation.cost (charge : Nat) (operation : Operation) : Nat :=
  operation.parameters.length * (charge + 1) + 1 + charge + operation.responses.length * charge

def Candidate.cost (charge : Nat) : Candidate → Nat
  | .component _ _ _ => charge
  | .operation planned => planned.cost charge

theorem parametersDeclaration_spends {operation : Operation} (stands : operation.Stands index) :
    Spends budget (parametersDeclaration index dialect operation)
      (operation.parameters.length * (budget.charge + 1) + 1) DeclarationsFit := by
  unfold parametersDeclaration
  cases operation.parametersNamed with
  | none => exact .nothing
  | some named =>
    have grouped : Spends budget (parametersType index dialect operation.parameters)
        (operation.parameters.length * (budget.charge + 1) + 1) Fits := by
      refine ((typedParameters_spends covers stands.parameters).bind fun typed =>
        .pure (operation.parameters.length + 1) ?_).imp (by rw [Nat.mul_succ]; omega) fun _ _ h => h
      rintro k ⟨fit, fewer, known⟩
      exact (fits_groups known fit).mono (by omega)
    exact grouped.declared fun _ => rfl

theorem bodyDeclaration_spends {operation : Operation} (stands : operation.Stands index) :
    Spends budget (bodyDeclaration index dialect operation) budget.charge DeclarationsFit := by
  unfold bodyDeclaration
  cases hb : operation.body with
  | none => exact .nothing
  | some pair =>
    have written := (stands.body pair hb).written
    exact (partType_spends covers written).declared fun _ => rfl

theorem responseDeclarations_spends {responses : List Response}
    (stand : ∀ response ∈ responses, response.Stands index) :
    Spends budget (responseDeclarations index dialect responses) (responses.length * budget.charge)
      DeclarationsFit := by
  induction responses with
  | nil => exact .nothing
  | cons response rest ih =>
    have first := stand response List.mem_cons_self
    have later := ih fun r hm => stand r (List.mem_cons_of_mem _ hm)
    refine ((partType_spends covers first.written).bind fun type => later.bind fun declarations =>
      .pure 0 ?_).imp (by rw [List.length_cons, Nat.succ_mul]; omega) fun _ _ h => h
    exact fun m fit k fits => FitAll.cons fits fit

theorem operationDeclarations_spends {operation : Operation} (stands : operation.Stands index) :
    Spends budget (operationDeclarations index dialect operation) (operation.cost budget.charge)
      DeclarationsFit := by
  refine ((parametersDeclaration_spends covers stands).bind fun ps =>
    (bodyDeclaration_spends covers stands).bind fun bs =>
      (responseDeclarations_spends covers stands.responses).bind fun rs => .pure 0 ?_).imp
    (by rw [Operation.cost]; omega) fun _ _ h => h
  intro m ofResponses l ofBody k ofParameters
  have all := (ofParameters.append ofBody).append ofResponses
  simp only [DeclarationsFit, List.map_append]
  exact all.mono (by omega)

theorem componentType_spends {kind : DeclarationKind} {here : Located} (stands : here.Stands index) :
    Spends budget (componentType index dialect kind here) budget.charge Fits := by
  cases kind with
  | response | requestBody | parameter => exact partType_spends covers stands
  | _ => exact typeOfRoot_spends covers stands

theorem candidateDeclarations_spends {candidate : Candidate} (stands : candidate.Stands index) :
    Spends budget (candidateDeclarations index dialect candidate) (candidate.cost budget.charge)
      DeclarationsFit := by
  cases candidate with
  | component here kind name => exact (componentType_spends covers stands).declared fun _ => rfl
  | operation operation => exact operationDeclarations_spends covers stands

theorem allDeclarations_spends {candidates : List Candidate}
    (stand : ∀ candidate ∈ candidates, candidate.Stands index) :
    Spends budget (allDeclarations index dialect candidates)
      (candidates.map (Candidate.cost budget.charge)).sum DeclarationsFit := by
  induction candidates with
  | nil => exact .pure 0 fitAll_nil
  | cons candidate rest ih =>
    have later := ih fun c hm => stand c (List.mem_cons_of_mem _ hm)
    refine (candidateDeclarations_spends covers (stand candidate List.mem_cons_self)).bind fun first =>
      later.bind fun declarations => .pure 0 ?_
    intro m fit k fits
    simp only [DeclarationsFit, List.map_append]
    exact fits.append fit

/-! ### Promoted places -/

/-- Each promoted place takes what a schema may weigh. -/
theorem promotedDeclarations_spends (passed : List Pointer) (state : State)
    {declarations : List Declaration} {after : State}
    (h : (promotedDeclarations index passed).run.run state = (.ok declarations, after)) :
    state.Grows after ∧ (after.Within budget.limit → ∃ k, DeclarationsFit declarations k ∧
      k + budget.paid state ≤ declarations.length * budget.charge + budget.paid after) := by
  cases next : nextPromoted? index passed state.promoted with
  | none =>
    rw [promotedDeclarations_of_none next] at h
    cases h
    exact ⟨.refl state, fun _ => ⟨0, fitAll_nil, by simp⟩⟩
  | some entry =>
    obtain ⟨target, name⟩ := entry
    have smaller := Index.unvisited_lt target.found (not_mem_of_nextPromoted next)
    rw [promotedDeclarations_of_some next] at h
    rcases hr : (typeOfRoot index target.node target.pointer).run.run state with ⟨_ | type, between⟩
    · rw [run_bind_of_error hr] at h
      cases h
    · rw [run_bind_of_ok hr] at h
      obtain ⟨first, ofFirst⟩ := typeOfRoot_spends covers target.found state type between hr
      rcases hr' : (promotedDeclarations index (passed ++ [target.pointer])).run.run between with
        ⟨_ | later, last⟩
      · rw [run_bind_of_error hr'] at h
        cases h
      · rw [run_bind_of_ok hr'] at h
        cases h
        obtain ⟨second, ofSecond⟩ := promotedDeclarations_spends _ between hr'
        refine ⟨first.trans second, fun within => ?_⟩
        obtain ⟨k, fits, paid⟩ := ofFirst (within.earlier second)
        obtain ⟨m, fit, paid'⟩ := ofSecond within
        refine ⟨k + m, FitAll.cons fits fit, ?_⟩
        rw [List.length_cons, Nat.succ_mul]
        omega
termination_by index.unvisited passed

end

end ApiTypes.Api
