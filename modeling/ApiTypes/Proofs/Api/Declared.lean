import ApiTypes.Proofs.Api.Part

/-!
# The declarations made

What the declarations of a document are, judged by the state of typing at the end:

* `CandidateDeclared`: those of a named part or an operation, for the places it declares;
* `PromotedDeclared`: those of the places promoted on the way;
* `allDeclarations_yields`, `promotedDeclarations_made`: typing makes these and no others, in the
  order of the names given.
-/

namespace ApiTypes.Api

open Typing

/-- The place and the name of a declaration. -/
def nameEntry (declaration : Declaration) : Pointer × String :=
  (declaration.pointer, declaration.name)

section
variable (index : Index) (dialect : Dialect) (state : State)

def ComponentTyped (kind : DeclarationKind) (here : Located) (type : TypeExpr) : Prop :=
  match kind with
  | .response => PartTyped index dialect state .response here type
  | .requestBody => PartTyped index dialect state .requestBody here type
  | .parameter => PartTyped index dialect state .parameter here type
  | _ => NodeTyped index state here.node here.place type

def ParametersDeclared (operation : Operation) (declarations : List Declaration) : Prop :=
  match operation.parametersNamed with
  | none => declarations = []
  | some named => ∃ type, ParametersTyped index dialect state operation.parameters type ∧
    declarations = [⟨named.name, named.pointer, .operationParameters, type, none⟩]

def BodyDeclared (operation : Operation) (declarations : List Declaration) : Prop :=
  match operation.body with
  | none => declarations = []
  | some (body, named) => ∃ type, PartTyped index dialect state body.part body.written type ∧
    declarations = [⟨named.name, named.pointer, .operationRequestBody, type, body.doc⟩]

def ResponseDeclared (response : Response) (declaration : Declaration) : Prop :=
  ∃ type, PartTyped index dialect state .response response.written type ∧
    declaration = ⟨response.name, response.written.place, .operationResponse, type, response.doc⟩

/-- The declarations of a candidate. -/
def CandidateDeclared (candidate : Candidate) (declarations : List Declaration) : Prop :=
  match candidate with
  | .component here kind name => ∃ type, ComponentTyped index dialect state kind here type ∧
    declarations = [⟨name, here.place, kind, type, Schema.doc? here.node⟩]
  | .operation operation => ∃ ofParameters ofBody ofResponses,
    ParametersDeclared index dialect state operation ofParameters ∧
    BodyDeclared index dialect state operation ofBody ∧
    List.Forall₂ (ResponseDeclared index dialect state) operation.responses ofResponses ∧
    declarations = ofParameters ++ ofBody ++ ofResponses

/-- The declaration of a promoted place. -/
def PromotedDeclared (declaration : Declaration) : Prop :=
  ∃ node, index.get? declaration.pointer = some node ∧
    NodeTyped index state node declaration.pointer declaration.type ∧
    declaration.kind = .promoted ∧ declaration.doc = Schema.doc? node

end

/-! ## Candidates -/

section
variable {index : Index} {dialect : Dialect}

theorem componentType_yields {kind : DeclarationKind} {here : Located}
    (stands : here.Stands index) :
    Yields index [] (componentType index dialect kind here) fun state type =>
      ComponentTyped index dialect state kind here type := by
  cases kind with
  | response | requestBody | parameter => exact partType_yields stands
  | _ => exact typeOfRoot_yields index here.node here.place stands

theorem responseDeclarations_yields {responses : List Response}
    (stand : ∀ response ∈ responses, response.Stands index) :
    Yields index [] (responseDeclarations index dialect responses) fun state declarations =>
      List.Forall₂ (ResponseDeclared index dialect state) responses declarations := by
  induction responses with
  | nil => exact .pure fun _ => .nil
  | cons response rest ih =>
    have first := stand response List.mem_cons_self
    have later := ih fun r hm => stand r (List.mem_cons_of_mem _ hm)
    exact (partType_yields first.written).bind fun type => later.bind fun _ =>
      .pure fun _ hl ht => .cons ⟨type, ht, rfl⟩ hl

theorem operationDeclarations_yields {operation : Operation} (stands : operation.Stands index) :
    Yields index [] (operationDeclarations index dialect operation) fun state declarations =>
      CandidateDeclared index dialect state (.operation operation) declarations := by
  have parameters : Yields index [] (parametersDeclaration index dialect operation)
      fun state declarations => ParametersDeclared index dialect state operation declarations := by
    unfold parametersDeclaration ParametersDeclared
    cases operation.parametersNamed with
    | none => exact .pure fun _ => rfl
    | some named =>
      exact (parametersType_yields stands.parameters).bind fun type =>
        .pure fun _ ht => ⟨type, ht, rfl⟩
  have body : Yields index [] (bodyDeclaration index dialect operation)
      fun state declarations => BodyDeclared index dialect state operation declarations := by
    unfold bodyDeclaration BodyDeclared
    cases hb : operation.body with
    | none => exact .pure fun _ => rfl
    | some pair =>
      have written := (stands.body pair hb).written
      exact (partType_yields written).bind fun type => .pure fun _ ht => ⟨type, ht, rfl⟩
  exact parameters.bind fun ps => body.bind fun bs =>
    (responseDeclarations_yields stands.responses).bind fun rs =>
      .pure fun _ hr hb hp => ⟨ps, bs, rs, hp, hb, hr, rfl⟩

theorem candidateDeclarations_yields {candidate : Candidate} (stands : candidate.Stands index) :
    Yields index [] (candidateDeclarations index dialect candidate) fun state declarations =>
      CandidateDeclared index dialect state candidate declarations := by
  cases candidate with
  | component here kind name =>
    exact (componentType_yields stands).bind fun type => .pure fun _ ht => ⟨type, ht, rfl⟩
  | operation operation => exact operationDeclarations_yields stands

theorem allDeclarations_yields (dialect : Dialect) {candidates : List Candidate}
    (stand : ∀ candidate ∈ candidates, candidate.Stands index) :
    Yields index [] (allDeclarations index dialect candidates) fun state declarations =>
      ∃ blocks, List.Forall₂ (CandidateDeclared index dialect state) candidates blocks ∧
        declarations = blocks.flatten := by
  induction candidates with
  | nil => exact .pure fun _ => ⟨[], .nil, rfl⟩
  | cons candidate rest ih =>
    have later := ih fun c hm => stand c (List.mem_cons_of_mem _ hm)
    refine (candidateDeclarations_yields (stand candidate List.mem_cons_self)).bind fun first => ?_
    refine later.bind fun declarations => .pure ?_
    rintro state ⟨blocks, hb, rfl⟩ hc
    exact ⟨first :: blocks, .cons hc hb, rfl⟩

end

/-! ## Promoted places -/

section
variable {index : Index} {planned : List (Pointer × String)}

/-- The place to declare next is the first that was promoted and not declared. -/
theorem nextPromoted?_of_cons {state : State} (hv : state.Valid index planned)
    {done rest : List (Pointer × String)} {entry : Pointer × String}
    (h : state.promoted = done ++ entry :: rest) :
    ∃ target : index.Target, target.pointer = entry.1 ∧
      nextPromoted? index (done.map (·.1)) state.promoted = some (target, entry.2) := by
  have fresh : entry.1 ∉ done.map (·.1) := by
    have distinct := hv.promoted_nodup
    rw [h, List.map_append, List.map_cons] at distinct
    intro hm
    exact (List.nodup_append.1 distinct).2.2 _ hm _ List.mem_cons_self rfl
  have first : state.promoted.find? (fun e => !(done.map (·.1)).contains e.1) = some entry := by
    rw [h, List.find?_append, List.find?_eq_none.2, Option.none_or]
    · exact List.find?_cons_of_pos (by simpa using fresh)
    · intro e he
      have := List.mem_map_of_mem (f := (·.1)) he
      simpa using this
  obtain ⟨node, hn⟩ := Option.isSome_iff_exists.1 (hv.promoted entry (by simp [h]))
  have target : index.target? entry.1 = some ⟨entry.1, node, hn⟩ := by
    unfold Index.target?
    split
    · rename_i found hf
      rw [hn] at hf
      cases hf
      rfl
    · rename_i missing
      rw [hn] at missing
      cases missing
  refine ⟨⟨entry.1, node, hn⟩, rfl, ?_⟩
  rw [nextPromoted?, first, Option.bind_some, target]
  rfl

theorem nextPromoted?_of_nil {promoted : List (Pointer × String)} :
    nextPromoted? index (promoted.map (·.1)) promoted = none := by
  have : promoted.find? (fun e => !(promoted.map (·.1)).contains e.1) = none := by
    refine List.find?_eq_none.2 fun e he => ?_
    have := List.mem_map_of_mem (f := (·.1)) he
    simpa using this
  rw [nextPromoted?, this]
  rfl

theorem promotedDeclarations_of_none {state : State} {declared : List Pointer}
    (h : nextPromoted? index declared state.promoted = none) :
    (promotedDeclarations index declared).run.run state = (.ok [], state) := by
  rw [promotedDeclarations, run_get]
  split
  · rfl
  · rename_i next
    rw [h] at next
    cases next

theorem promotedDeclarations_of_some {state : State} {declared : List Pointer}
    {target : index.Target} {name : String}
    (h : nextPromoted? index declared state.promoted = some (target, name)) :
    (promotedDeclarations index declared).run.run state =
      (do
        let type ← typeOfRoot index target.node target.pointer
        let later ← promotedDeclarations index (declared ++ [target.pointer])
        return ⟨name, target.pointer, .promoted, type, Schema.doc? target.node⟩ :: later :
          TypingM (List Declaration)).run.run state := by
  rw [promotedDeclarations, run_get]
  split
  · rename_i next
    rw [h] at next
    cases next
  · rename_i next
    rw [h] at next
    cases next
    rfl

/-- Declaring the promoted places ends when all are declared: `done` before, and the others in the
order of their promotion. -/
theorem promotedDeclarations_made (state : State) (hv : state.Valid index planned)
    (done : List (Pointer × String)) (hd : done <+: state.promoted) :
    match (promotedDeclarations index (done.map (·.1))).run.run state with
    | (.ok declarations, after) => Run index [] state after ∧
      after.promoted = done ++ declarations.map nameEntry ∧
      ∀ declaration ∈ declarations, PromotedDeclared index after declaration
    | (.error error, after) => Run index [] state after ∧ index.Broken error := by
  obtain ⟨rest, hd⟩ := hd
  cases rest with
  | nil =>
    rw [List.append_nil] at hd
    rw [promotedDeclarations_of_none (hd ▸ nextPromoted?_of_nil)]
    exact ⟨.refl, by simp [hd], by simp⟩
  | cons entry rest =>
    obtain ⟨target, same, next⟩ := nextPromoted?_of_cons hv hd.symm
    have smaller := Index.unvisited_lt target.found (not_mem_of_nextPromoted next)
    rw [promotedDeclarations_of_some next]
    rcases (typeOfRoot_yields index target.node target.pointer target.found state).cases with
      ⟨type, mid, he, run, typed⟩ | ⟨error, after, he, run, broken⟩
    · have grown : done ++ [entry] <+: mid.promoted := by
        refine List.IsPrefix.trans ?_ run.grows.promoted
        rw [← hd]
        exact ⟨rest, by simp⟩
      have passed : (done ++ [entry]).map (·.1) = done.map (·.1) ++ [target.pointer] := by
        simp [same]
      have later := promotedDeclarations_made mid (run_valid run hv) (done ++ [entry]) grown
      rw [passed] at later
      rw [run_bind_of_ok he]
      rcases he' : (promotedDeclarations index (done.map (·.1) ++ [target.pointer])).run.run mid
        with ⟨_ | declarations, after⟩
      · simp only [he'] at later
        rw [run_bind_of_error he']
        exact ⟨run.trans later.1, later.2⟩
      · simp only [he'] at later
        obtain ⟨run', promoted, made⟩ := later
        rw [run_bind_of_ok he']
        refine ⟨run.trans run', ?_, ?_⟩
        · simp [promoted, nameEntry, same]
        · intro declaration hm
          rcases List.mem_cons.1 hm with rfl | hm
          · exact ⟨target.node, target.found, typed after run', rfl, rfl⟩
          · exact made declaration hm
    · rw [run_bind_of_error he]
      exact ⟨run, broken⟩
termination_by index.unvisited (done.map (·.1))
decreasing_by
  rw [passed]
  exact smaller

end

end ApiTypes.Api
