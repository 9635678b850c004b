import ApiTypes.Proofs.Api.Declared

/-!
# Assembled declarations

`Assembled` is what is known of the declarations of a document once all are made, but for the
wrapper: those of the candidates and those of the promoted places carry exactly the names given
(`Assembled.names_eq`), and a property that all ways of building a type preserve holds of every
declared type (`Assembled.preserved`).
-/

namespace ApiTypes.Api

open Typing

structure Assembled (index : Index) (dialect : Dialect) (rawSchema : Bool)
    (candidates : List Candidate) (state : State) (declared promoted : List Declaration) :
    Prop where
  collected : ∃ names,
    (Api.candidates index dialect rawSchema index.locations).run {} = .ok (candidates, names)
  stand : ∀ candidate ∈ candidates, candidate.Stands index
  valid : state.Valid index (candidates.flatMap Candidate.declared)
  run : ∃ names, State.Valid index (candidates.flatMap Candidate.declared) { names } ∧
    Run index [] { names } state
  declared : ∃ blocks, List.Forall₂ (CandidateDeclared index dialect state) candidates blocks ∧
    declared = blocks.flatten
  places : state.promoted = promoted.map nameEntry
  promoted : ∀ declaration ∈ promoted, PromotedDeclared index state declaration

section
variable {index : Index} {dialect : Dialect} {rawSchema : Bool} {state : State}

/-! ## Names -/

theorem responses_names_eq {responses : List Response} {declarations : List Declaration}
    (h : List.Forall₂ (ResponseDeclared index dialect state) responses declarations) :
    declarations.map nameEntry =
      responses.map fun response => (response.written.place, response.name) := by
  induction h with
  | nil => rfl
  | cons first _ ih =>
    obtain ⟨type, -, rfl⟩ := first
    simp [nameEntry, ih]

theorem CandidateDeclared.names_eq {candidate : Candidate} {declarations : List Declaration}
    (h : CandidateDeclared index dialect state candidate declarations) :
    declarations.map nameEntry = candidate.declared := by
  cases candidate with
  | component here kind name =>
    obtain ⟨type, -, rfl⟩ := h
    rfl
  | operation operation =>
    obtain ⟨ofParameters, ofBody, ofResponses, hp, hb, hr, rfl⟩ := h
    have parameters : ofParameters.map nameEntry =
        operation.parametersNamed.toList.map fun named => (named.pointer, named.name) := by
      unfold ParametersDeclared at hp
      split at hp
      · rename_i none
        simp [hp, none]
      · rename_i named some
        obtain ⟨type, -, rfl⟩ := hp
        simp [nameEntry, some]
    have body : ofBody.map nameEntry =
        operation.body.toList.map fun entry => (entry.2.pointer, entry.2.name) := by
      unfold BodyDeclared at hb
      split at hb
      · rename_i none
        simp [hb, none]
      · rename_i body named some
        obtain ⟨type, -, rfl⟩ := hb
        simp [nameEntry, some]
    simp only [List.map_append, parameters, body, responses_names_eq hr, Candidate.declared,
      Operation.declared]

theorem blocks_names_eq {candidates : List Candidate} {blocks : List (List Declaration)}
    (h : List.Forall₂ (CandidateDeclared index dialect state) candidates blocks) :
    blocks.flatten.map nameEntry = candidates.flatMap Candidate.declared := by
  induction h with
  | nil => rfl
  | cons first _ ih => rw [List.flatten_cons, List.map_append, first.names_eq, ih, List.flatMap_cons]

variable {candidates : List Candidate} {declared promoted : List Declaration}

/-- The declarations carry the names given, in the order in which they were given. -/
theorem Assembled.names_eq (h : Assembled index dialect rawSchema candidates state declared promoted) :
    (declared ++ promoted).map nameEntry = state.names.entries := by
  obtain ⟨blocks, hb, rfl⟩ := h.declared
  rw [List.map_append, blocks_names_eq hb, ← h.places, h.valid.entries]

/-! ## Making them -/

theorem typedDeclarations_assembled {names : NameTable}
    (collected : (Api.candidates index dialect rawSchema index.locations).run {} =
      .ok (candidates, names)) :
    match (typedDeclarations index dialect candidates).run.run { names } with
    | (.ok declarations, state) => ∃ declared promoted, declarations = declared ++ promoted ∧
      Assembled index dialect rawSchema candidates state declared promoted
    | (.error error, _) => index.Broken error := by
  obtain ⟨valid, entries, stand⟩ := candidates_planned.of_ok collected
  have start : State.Valid index (candidates.flatMap Candidate.declared) { names } :=
    entries ▸ valid_start valid
  unfold typedDeclarations
  rcases (allDeclarations_yields dialect stand { names }).cases with
    ⟨declared, mid, hrun, run, made⟩ | ⟨error, after, hrun, -, broken⟩
  · rw [run_bind_of_ok hrun]
    have rest := promotedDeclarations_made mid (run_valid run start) [] List.nil_prefix
    rw [List.map_nil] at rest
    rcases hrun' : (promotedDeclarations index []).run.run mid with ⟨_ | promoted, state⟩
    · simp only [hrun'] at rest
      rw [run_bind_of_error hrun']
      exact rest.2
    · simp only [hrun'] at rest
      obtain ⟨run', places, promoted_made⟩ := rest
      rw [run_bind_of_ok hrun']
      exact ⟨declared, promoted, rfl, ⟨names, collected⟩, stand, run_valid (run.trans run') start,
        ⟨names, start, run.trans run'⟩, made state run', places, promoted_made⟩
  · rw [run_bind_of_error hrun]
    exact broken

theorem ok_of_isOk {ε α : Type} {result : Except ε α} (h : result.isOk = true) :
    ∃ a, result = .ok a := by
  cases result with
  | error error => cases h
  | ok a => exact ⟨a, rfl⟩

/-- There is a result when something was computed from it. -/
theorem ok_of_computed {ε α β : Type} {result : Except ε α} {f : α → β} {b : β}
    (h : result.toOption.map f = some b) : ∃ a, result = .ok a ∧ f a = b := by
  cases result with
  | error error => cases h
  | ok a => exact ⟨a, rfl, Option.some.inj h⟩

end

/-! ## Properties of the types declared -/

section
variable {index : Index} {dialect : Dialect} {state : State} {P : TypeExpr → Prop}
  (hp : Preserved index state P) (expanded : ∀ entry ∈ state.expanded, P entry.2)

include hp

/-- The parameters of one location have distinct names. -/
theorem group_preserved {typed : List TypedParameter} (location : String)
    (distinct : (typed.map (·.parameter)).Pairwise
      fun p q => ¬(p.name = q.name ∧ p.location = q.location))
    (ht : ∀ t ∈ typed, P t.type ∧ Documented t.parameter.doc) :
    P (.object ((typed.filter fun t => t.parameter.location == location).map
      TypedParameter.member)) := by
  have names : ((typed.filter fun t => t.parameter.location == location).map
      (·.parameter.name)).Nodup := by
    refine List.pairwise_map.2 (List.Pairwise.imp_of_mem ?_ ((List.pairwise_map.1 distinct).filter _))
    intro s t hs ht hne same
    have hs : s.parameter.location = location := by simpa using (List.mem_filter.1 hs).2
    have ht : t.parameter.location = location := by simpa using (List.mem_filter.1 ht).2
    exact hne ⟨same, hs.trans ht.symm⟩
  have members : List.Forall₂ (PropertyWith P)
      ((typed.filter fun t => t.parameter.location == location).map (·.parameter.name))
      ((typed.filter fun t => t.parameter.location == location).map TypedParameter.member) := by
    rw [List.forall₂_map_left_iff, List.forall₂_map_right_iff, List.forall₂_same]
    intro t hm
    obtain ⟨hP, hd⟩ := ht t (List.mem_filter.1 hm).1
    exact ⟨t.type, _, _, _, rfl, hP, hd⟩
  simpa using hp.object _ _ none names members (by simp)

theorem groups_preserved {parameters : List Parameter} {typed : List TypedParameter}
    (stand : ∀ parameter ∈ parameters, parameter.Stands index)
    (distinct : parameters.Pairwise fun p q => ¬(p.name = q.name ∧ p.location = q.location))
    (ht : List.Forall₂ (fun parameter t => t.parameter = parameter ∧ P t.type) parameters typed) :
    P (.object (parameterLocations.filterMap (parameterGroup? typed))) := by
  have same : typed.map (·.parameter) = parameters := by
    clear stand distinct
    induction ht with
    | nil => rfl
    | cons first _ ih => rw [List.map_cons, first.1, ih]
  have typed_ok : ∀ t ∈ typed, P t.type ∧ Documented t.parameter.doc := by
    intro t hm
    obtain ⟨parameter, hparameter, rfl, hP⟩ := exists_left_of_forall₂ ht hm
    exact ⟨hP, (stand _ hparameter).doc⟩
  have groups : List.Forall₂ (PropertyWith P)
      (parameterLocations.filter fun location => (parameterGroup? typed location).isSome)
      (parameterLocations.filterMap (parameterGroup? typed)) := by
    refine forall₂_filterMap fun location _ member hg => ?_
    unfold parameterGroup? at hg
    dsimp only at hg
    split at hg
    · cases hg
    · cases hg
      exact ⟨_, _, _, _, rfl, group_preserved hp location (same ▸ distinct) typed_ok,
        documented_none⟩
  have locations : (parameterLocations.filter
      fun location => (parameterGroup? typed location).isSome).Nodup :=
    (show parameterLocations.Nodup by decide).filter _
  simpa using hp.object _ _ none locations groups (by simp)

include expanded

theorem PartTyped.preserved {part : Part} {written : Located} {type : TypeExpr}
    (h : PartTyped index dialect state part written type) : P type := by
  rcases h with ⟨target, name, -, hn, rfl⟩ | ⟨here, -, stands, -, hs⟩
  · exact hp.named target name hn
  · have source := typeSource_stands dialect part stands
    cases ht : typeSource dialect part here with
    | schema schema =>
      rw [ht] at hs source
      exact NodeTyped.preserved hp expanded _ _ _ source hs
    | fixed fixed =>
      rw [ht] at hs source
      rcases source with same | same
      · rw [hs, same]
        exact hp.never
      · rw [hs, same]
        exact hp.unknown

theorem ParametersTyped.preserved {parameters : List Parameter} {type : TypeExpr}
    (stand : ∀ parameter ∈ parameters, parameter.Stands index)
    (distinct : parameters.Pairwise fun p q => ¬(p.name = q.name ∧ p.location = q.location))
    (h : ParametersTyped index dialect state parameters type) : P type := by
  obtain ⟨typed, ht, rfl⟩ := h
  refine groups_preserved hp (fun p hm => stand p (List.mem_filter.1 hm).1)
    (distinct.filter _) (ht.imp fun p t h => ⟨h.1, ?_⟩)
  exact h.2.preserved hp expanded

theorem CandidateDeclared.preserved {candidate : Candidate} {declarations : List Declaration}
    (stands : candidate.Stands index)
    (h : CandidateDeclared index dialect state candidate declarations) :
    ∀ declaration ∈ declarations, P declaration.type ∧ Documented declaration.doc := by
  cases candidate with
  | component here kind name =>
    obtain ⟨type, ht, rfl⟩ := h
    intro declaration hm
    rw [List.mem_singleton.1 hm]
    refine ⟨?_, documented_doc? here.node⟩
    unfold ComponentTyped at ht
    split at ht
    · exact ht.preserved hp expanded
    · exact ht.preserved hp expanded
    · exact ht.preserved hp expanded
    · exact NodeTyped.preserved hp expanded _ _ _ stands ht
  | operation operation =>
    obtain ⟨ofParameters, ofBody, ofResponses, hparameters, hbody, hresponses, rfl⟩ := h
    have stands : operation.Stands index := stands
    intro declaration hm
    rcases List.mem_append.1 hm with hm | hm
    · rcases List.mem_append.1 hm with hm | hm
      · unfold ParametersDeclared at hparameters
        split at hparameters
        · simp [hparameters] at hm
        · obtain ⟨type, ht, rfl⟩ := hparameters
          rw [List.mem_singleton.1 hm]
          exact ⟨ht.preserved hp expanded stands.parameters stands.distinct, documented_none⟩
      · unfold BodyDeclared at hbody
        split at hbody
        · simp [hbody] at hm
        · rename_i body named some
          obtain ⟨type, ht, rfl⟩ := hbody
          rw [List.mem_singleton.1 hm]
          exact ⟨ht.preserved hp expanded, (stands.body _ some).doc⟩
    · obtain ⟨response, hr, type, ht, rfl⟩ := exists_left_of_forall₂ hresponses hm
      exact ⟨ht.preserved hp expanded, (stands.responses response hr).doc⟩

theorem PromotedDeclared.preserved {declaration : Declaration}
    (h : PromotedDeclared index state declaration) :
    P declaration.type ∧ Documented declaration.doc := by
  obtain ⟨node, hn, ht, -, hd⟩ := h
  exact ⟨NodeTyped.preserved hp expanded _ _ _ hn ht, hd ▸ documented_doc? node⟩

end

/-- What all ways of building a type preserve, in every state, holds of every declared type but the
wrapper's. -/
theorem Assembled.preserved {index : Index} {dialect : Dialect} {rawSchema : Bool}
    {candidates : List Candidate} {state : State} {declared promoted : List Declaration}
    (h : Assembled index dialect rawSchema candidates state declared promoted)
    {P : State → TypeExpr → Prop} (mono : ∀ a b type, a.Grows b → P a type → P b type)
    (kept : ∀ state : State, state.Valid index (candidates.flatMap Candidate.declared) →
      Preserved index state (P state)) :
    ∀ declaration ∈ declared ++ promoted,
      P state declaration.type ∧ Documented declaration.doc := by
  obtain ⟨names, start, run⟩ := h.run
  have expanded := run_expanded mono kept run start (by simp)
  have hp := kept state h.valid
  intro declaration hm
  rcases List.mem_append.1 hm with hm | hm
  · obtain ⟨blocks, hb, rfl⟩ := h.declared
    obtain ⟨block, hblock, hm⟩ := List.mem_flatten.1 hm
    obtain ⟨candidate, hc, made⟩ := exists_left_of_forall₂ hb hblock
    exact made.preserved hp expanded (h.stand candidate hc) declaration hm
  · exact (h.promoted declaration hm).preserved hp expanded

end ApiTypes.Api
