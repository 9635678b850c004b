import ApiTypes.Proofs.Api.Merged
import ApiTypes.Proofs.Api.Part

/-!
# One object behind what is written

A parameter, a body or a response is read twice: its name, location and documentation when the
operation is collected, and its type when types are made. Both follow the references from what is
written, but typing stops at the first target that has a name.

* `LeadsThrough`: the targets that references pass, up to the object they end at;
* `followChain_eq`: whatever a walk looks for among them, it goes the same way, so it stops at the
  first target it looks for or ends at the same object;
* `partType_run`: so a part is typed by the name of one of the targets, or by the object that it
  was read from.
-/

namespace ApiTypes.Api

open Typing

/-! ## The way of references -/

/-- The references from a node pass these targets, one after the other, and end at the last. -/
inductive LeadsThrough (index : Index) : Located → List Located → Prop
  | ends {here : Located} (plain : Schema.reference? here.node = none) : LeadsThrough index here []
  | next {here : Located} {reference : String} {target : index.Target} {later : List Located}
      (refers : Schema.reference? here.node = some reference)
      (resolved : index.resolve reference here.place = .ok target)
      (rest : LeadsThrough index ⟨target.pointer, target.node⟩ later) :
      LeadsThrough index here (⟨target.pointer, target.node⟩ :: later)

section
variable {index : Index}

theorem LeadsThrough.stand {written : Located} {targets : List Located}
    (h : LeadsThrough index written targets) : ∀ target ∈ targets, target.Stands index := by
  induction h with
  | ends => simp
  | @next here reference target later refers resolved rest ih =>
    exact List.forall_mem_cons.2 ⟨target.found, ih⟩

/-- The answer of a walk through targets: the first that is looked for, or the object at the end. -/
def answerOf {α : Type} (stop? : Pointer → Option α) (written : Located) (targets : List Located) :
    α ⊕ Located :=
  match targets.findSome? fun target => stop? target.place with
  | some answer => .inl answer
  | none => .inr (targets.getLastD written)

section
variable {α : Type} {stop? : Pointer → Option α} {seen : List Pointer} {here : Located}

theorem followChain_ended (plain : Schema.reference? here.node = none) :
    followChain index stop? seen here = .ok (.inr here) := by
  unfold followChain
  split
  · rfl
  · rename_i refers
    rw [plain] at refers
    cases refers

theorem followChain_next {reference : String} {target : index.Target}
    (refers : Schema.reference? here.node = some reference)
    (resolved : index.resolve reference here.place = .ok target)
    (fresh : target.isCycle (seen ++ [here.place]) = false) :
    followChain index stop? seen here =
      match stop? target.pointer with
      | some answer => .ok (.inl answer)
      | none =>
        followChain index stop? (seen ++ [here.place]) ⟨target.pointer, target.node⟩ := by
  rw [followChain]
  simp only [refers, resolved]
  cases stop? target.pointer with
  | some answer => rfl
  | none =>
    dsimp only
    split
    · rename_i cycle
      rw [fresh] at cycle
      cases cycle
    · rfl

end

/-- A walk that comes to an end goes the same way, whatever it looks for. -/
theorem followChain_eq {seen : List Pointer} {written found : Located}
    (h : followChain index (fun _ => (none : Option Empty)) seen written = .ok (.inr found)) :
    ∃ targets, LeadsThrough index written targets ∧ targets.getLastD written = found ∧
      ∀ {α : Type} (stop? : Pointer → Option α),
        followChain index stop? seen written = .ok (answerOf stop? written targets) := by
  fun_induction followChain index (fun _ => (none : Option Empty)) seen written with
  | case1 seen here plain =>
    cases h
    exact ⟨[], .ends plain, rfl, fun stop? => followChain_ended plain⟩
  | case2 seen here reference hr error he => cases h
  | case3 seen here reference hr target ht answer hs => cases h
  | case4 seen here reference hr target ht hs cycle => cases h
  | case5 seen here reference refers target resolved hs fresh ih =>
    obtain ⟨targets, leads, last, same⟩ := ih h
    refine ⟨_, .next refers resolved leads, ?_, fun stop? => ?_⟩
    · rw [List.getLastD_cons, last]
    · rw [followChain_next refers resolved fresh, answerOf, List.findSome?_cons]
      cases stop? target.pointer with
      | some answer => rfl
      | none => rw [same, answerOf, List.getLastD_cons]

/-! ## Typing what was read -/

/-- The type that a source gives. -/
def typeFrom (index : Index) : TypeSource → TypingM TypeExpr
  | .schema schema => typeOfRoot index schema.node schema.place
  | .fixed type => return type

/-- A part is typed by the name of the first target that has one, or by the object at the end. -/
theorem partType_run {dialect : Dialect} {part : Part} {written : Located}
    {targets : List Located} {state : State}
    (walk : followChain index state.names.get? [] written =
      .ok (answerOf state.names.get? written targets)) :
    (partType index dialect part written).run.run state =
      match targets.findSome? fun target => state.names.get? target.place with
      | some name => (.ok (.ref name), state)
      | none =>
        (typeFrom index (typeSource dialect part (targets.getLastD written))).run.run state := by
  have first : (get : TypingM State).run.run state = (.ok state, state) := rfl
  unfold partType
  rw [run_bind_of_ok first]
  dsimp only
  rw [walk, answerOf]
  cases targets.findSome? fun target => state.names.get? target.place with
  | some name => rfl
  | none =>
    dsimp only
    cases typeSource dialect part (targets.getLastD written) <;> rfl

/-- What is written leads through the targets to the part, and whatever is named, it is typed by the
name of one of them or by that part. -/
structure OneObject (index : Index) (written : Located) (part : Json) (targets : List Located) :
    Prop where
  leads : LeadsThrough index written targets
  read : (targets.getLastD written).node = part
  stands : written.Stands index → (targets.getLastD written).Stands index
  stand : ∀ target ∈ targets, target.Stands index
  walk : ∀ names : NameTable,
    followChain index names.get? [] written = .ok (answerOf names.get? written targets)
  typed : ∀ dialect kind (state : State), (partType index dialect kind written).run.run state =
    match targets.findSome? fun target => state.names.get? target.place with
    | some name => (.ok (.ref name), state)
    | none => (typeFrom index (typeSource dialect kind (targets.getLastD written))).run.run state

theorem followChain_of_deref {written : Located} {part : Json}
    (h : deref index written = .ok part) :
    ∃ found, followChain index (fun _ => (none : Option Empty)) [] written = .ok (.inr found) ∧
      found.node = part := by
  unfold deref at h
  cases walked : followChain index (fun _ => (none : Option Empty)) [] written with
  | error error =>
    rw [walked] at h
    cases h
  | ok answer =>
    rw [walked] at h
    cases answer with
    | inl none => cases none
    | inr found => exact ⟨found, rfl, Except.ok.inj h⟩

theorem oneObject_of_deref {written : Located} {part : Json} (h : deref index written = .ok part) :
    ∃ targets, OneObject index written part targets := by
  obtain ⟨found, walked, same⟩ := followChain_of_deref h
  obtain ⟨targets, leads, rfl, walk⟩ := followChain_eq walked
  refine ⟨targets, leads, same, ?_, leads.stand, fun names => walk names.get?, ?_⟩
  · intro stands
    exact List.forall_mem_cons.2 ⟨stands, leads.stand⟩ _ List.getLastD_mem_cons
  · intro dialect kind state
    exact partType_run (walk state.names.get?)

end

/-! ## Operations -/

namespace Operation

/-- What an operation tells of its parameters, its body and its responses is told of the objects
that their types are made of. -/
structure Told (index : Index) (operation : Operation) : Prop where
  parameters : ∀ parameter ∈ operation.parameters, ∃ part targets,
    OneObject index parameter.written part targets ∧
      parameter.name = (part.text? "name").getD "" ∧
      parameter.location = (part.text? "in").getD "" ∧
      parameter.required = part.flag "required" ∧ parameter.doc = Schema.doc? part
  body : ∀ body named, operation.body = some (body, named) → ∃ part targets,
    OneObject index body.written part targets ∧
      body.required = part.flag "required" ∧ body.doc = Schema.doc? part
  responses : ∀ response ∈ operation.responses, ∃ part targets,
    OneObject index response.written part targets ∧ response.doc = Schema.doc? part

section
variable {index : Index} {before after : NameTable}

theorem deref_of_listed {place : Pointer} {entry : Entry} (h : entry ∈ listed index place) :
    deref index entry.written = .ok entry.part := by
  obtain ⟨written, -, found⟩ := List.mem_filterMap.1 h
  obtain ⟨part, found, rfl⟩ := Option.map_eq_some_iff.1 found
  cases he : deref index written with
  | error error =>
    rw [he] at found
    cases found
  | ok other =>
    rw [he] at found
    cases found
    rfl

theorem responsesOf_read {name : String} {place : Pointer} {fields : List (String × Json)}
    {responses : List Response}
    (h : (responsesOf index name place fields).run before = .ok (responses, after)) :
    ∀ response ∈ responses, ∃ part,
      deref index response.written = .ok part ∧ response.doc = Schema.doc? part := by
  induction fields generalizing before after responses with
  | nil =>
    obtain ⟨rfl, -⟩ := run_pure_eq_ok.1 h
    simp
  | cons field rest ih =>
    obtain ⟨status, node⟩ := field
    unfold responsesOf at h
    split at h
    · exact ih h
    · obtain ⟨part, _, hp, h⟩ := run_bind_eq_ok.1 h
      obtain ⟨declared, _, -, h⟩ := run_bind_eq_ok.1 h
      obtain ⟨later, _, hl, h⟩ := run_bind_eq_ok.1 h
      obtain ⟨rfl, -⟩ := run_pure_eq_ok.1 h
      exact List.forall_mem_cons.2 ⟨⟨part, (lookUp_gives hp).1, rfl⟩, ih hl⟩

theorem plan_told {dialect : Dialect} {path method : String} {here : Located}
    {operation : Operation}
    (h : (plan index dialect path method here).run before = .ok (operation, after)) :
    operation.Told index := by
  have collected := plan_collected h
  constructor
  case parameters =>
    intro parameter hm
    rw [collected.parameters] at hm
    obtain ⟨entry, last, rfl⟩ := List.mem_map.1 hm
    have listed := (List.mem_filter.1 (lastEntries_subset _ last)).1
    obtain ⟨targets, one⟩ := oneObject_of_deref (deref_of_listed listed)
    exact ⟨entry.part, targets, one, rfl, rfl, rfl, rfl⟩
  case body =>
    intro body named has
    have source := collected.body
    rw [has, Option.map_some] at source
    generalize written : some body = found at source
    cases source with
    | @requestBody node part has hn leads =>
      cases written
      obtain ⟨targets, one⟩ := oneObject_of_deref leads
      exact ⟨part, targets, one, rfl, rfl⟩
    | parameter absent =>
      obtain ⟨entry, last, rfl⟩ := Option.map_eq_some_iff.1 written.symm
      have listed := (List.mem_filter.1 (List.mem_of_getLast? last)).1
      obtain ⟨targets, one⟩ := oneObject_of_deref (deref_of_listed listed)
      exact ⟨entry.part, targets, one, rfl, rfl⟩
  case responses =>
    unfold plan at h
    obtain ⟨found, _, -, h⟩ := run_bind_eq_ok.1 h
    obtain ⟨body, _, -, h⟩ := run_bind_eq_ok.1 h
    obtain ⟨parametersNamed, _, -, h⟩ := run_bind_eq_ok.1 h
    obtain ⟨bodyNamed, _, -, h⟩ := run_bind_eq_ok.1 h
    obtain ⟨responses, _, hr, h⟩ := run_bind_eq_ok.1 h
    obtain ⟨rfl, -⟩ := run_pure_eq_ok.1 h
    intro response hm
    obtain ⟨part, leads, doc⟩ := responsesOf_read hr response hm
    obtain ⟨targets, one⟩ := oneObject_of_deref leads
    exact ⟨part, targets, one, doc⟩

end

end Operation

/-- What is read and what is typed of a part are one object: of every part that can be looked up,
and so of everything that an operation tells of its parts. -/
theorem read_as_typed (index : Index) :
    (∀ written part, deref index written = .ok part → ∃ targets,
      OneObject index written part targets) ∧
    ∀ dialect path method here before operation after,
      (Operation.plan index dialect path method here).run before = .ok (operation, after) →
        operation.Told index := by
  constructor
  · intro written part
    exact oneObject_of_deref
  · intro dialect path method here before operation after
    exact Operation.plan_told

/-- An operation whose parameter and response are shared. The response is written by way of a place
that has no name. -/
def sharedGet : Json :=
  .object [
    ("parameters", .array [.object [("$ref", .string "#/components/parameters/Page")]]),
    ("responses", .object [("200", .object [("$ref", .string "#/x-shared/ok")])])]

def sharedParts : Document :=
  .ofJson (.object [
    ("openapi", .string "3.0.0"),
    ("paths", .object [("/pets", .object [("get", sharedGet)])]),
    ("x-shared", .object [("ok", .object [("$ref", .string "#/components/responses/Ok")])]),
    ("components", .object [
      ("parameters", .object [
        ("Page", .object [
          ("name", .string "page"), ("in", .string "query"),
          ("schema", .object [("type", .string "integer")])])]),
      ("responses", .object [
        ("Ok", .object [
          ("description", .string "Fine."),
          ("content", .object [
            ("application/json", .object [
              ("schema", .object [("type", .string "string")])])])])])])])

theorem read_as_typed_sharedParts :
    ∃ part operation after,
      deref (indexOf sharedParts .openApi3 false)
        ⟨⟨["paths", "/pets", "get", "responses", "200"]⟩,
          .object [("$ref", .string "#/x-shared/ok")]⟩ = .ok part ∧
      (Operation.plan (indexOf sharedParts .openApi3 false) .openApi3 "/pets" "get"
        ⟨⟨["paths", "/pets", "get"]⟩, sharedGet⟩).run {} = .ok (operation, after) ∧
      operation.parameters.length = 1 ∧ operation.responses.length = 1 ∧
      (∃ targets, OneObject (indexOf sharedParts .openApi3 false)
        ⟨⟨["paths", "/pets", "get", "responses", "200"]⟩,
          .object [("$ref", .string "#/x-shared/ok")]⟩ part targets) ∧
      operation.Told (indexOf sharedParts .openApi3 false) := by
  have found : (deref (indexOf sharedParts .openApi3 false)
      ⟨⟨["paths", "/pets", "get", "responses", "200"]⟩,
        .object [("$ref", .string "#/x-shared/ok")]⟩).toOption.isSome = true := by
    decide +kernel
  have planned : ((Operation.plan (indexOf sharedParts .openApi3 false) .openApi3 "/pets" "get"
      ⟨⟨["paths", "/pets", "get"]⟩, sharedGet⟩).run {}).toOption.map
        (fun result => (result.1.parameters.length, result.1.responses.length)) =
      some (1, 1) := by
    decide +kernel
  obtain ⟨single, whole⟩ := read_as_typed (indexOf sharedParts .openApi3 false)
  cases hd : deref (indexOf sharedParts .openApi3 false)
      ⟨⟨["paths", "/pets", "get", "responses", "200"]⟩,
        .object [("$ref", .string "#/x-shared/ok")]⟩ with
  | error error =>
    rw [hd] at found
    cases found
  | ok part =>
    cases hp : (Operation.plan (indexOf sharedParts .openApi3 false) .openApi3 "/pets" "get"
        ⟨⟨["paths", "/pets", "get"]⟩, sharedGet⟩).run {} with
    | error error =>
      rw [hp] at planned
      cases planned
    | ok result =>
      obtain ⟨operation, after⟩ := result
      rw [hp] at planned
      obtain ⟨parameters, responses⟩ := Prod.mk.inj (Option.some.inj planned)
      exact ⟨part, operation, after, rfl, rfl, parameters, responses, single _ _ hd,
        whole _ _ _ _ _ _ _ hp⟩

end ApiTypes.Api
