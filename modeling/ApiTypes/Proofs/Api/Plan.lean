import ApiTypes.Api.Assembly
import ApiTypes.Proofs.Api.Chain
import ApiTypes.Proofs.Typing.Preserved

/-!
# Naming before typing

What is named before any type is made:

* `Extends before after given`: a table grew by the names given, in that order;
* `Candidate.declared`: the places a candidate declares, with their names;
* `candidates_planned`: the table after collecting the candidates of a document consists of what
  they declare, in order, and nothing else. Every place belongs to one location (`ownerOf`), and a
  candidate names only places of its own, so no place is ever named a second time.
-/

namespace ApiTypes.Api

open Typing

/-- The table grew by names for places that had none. -/
structure Extends (before after : NameTable) (given : List (Pointer × String)) : Prop where
  entries : after.entries = before.entries ++ given
  valid : before.Valid → after.Valid

section
variable {before mid after : NameTable} {given more : List (Pointer × String)}

theorem Extends.refl (before : NameTable) : Extends before before [] :=
  ⟨by simp, id⟩

theorem Extends.trans (h : Extends before mid given) (h' : Extends mid after more) :
    Extends before after (given ++ more) :=
  ⟨by rw [h'.entries, h.entries, List.append_assoc], fun hv => h'.valid (h.valid hv)⟩

theorem Extends.fresh (h : Extends before after given) {place : Pointer}
    (unnamed : place ∉ before.entries.map (·.1)) (other : place ∉ given.map (·.1)) :
    place ∉ after.entries.map (·.1) := by
  rw [h.entries, List.map_append, List.mem_append, not_or]
  exact ⟨unnamed, other⟩

end

/-! ## Contracts -/

section
variable {α β : Type} {index : Index} {before : NameTable}

/-- What holds of the table and the result, when there is one. Otherwise a reference is broken. -/
def Plans (index : Index) (before : NameTable) (action : PlanM α) (post : NameTable → α → Prop) :
    Prop :=
  match action.run before with
  | .ok (a, after) => post after a
  | .error error => index.Broken error

theorem Plans.of_ok {action : PlanM α} {post : NameTable → α → Prop} {a : α} {after : NameTable}
    (h : Plans index before action post) (run : action.run before = .ok (a, after)) :
    post after a := by
  unfold Plans at h
  rwa [run] at h

theorem Plans.of_error {action : PlanM α} {post : NameTable → α → Prop} {error : CompileError}
    (h : Plans index before action post) (run : action.run before = .error error) :
    index.Broken error := by
  unfold Plans at h
  rwa [run] at h

theorem Plans.pure {a : α} {post : NameTable → α → Prop} (h : post before a) :
    Plans index before (Pure.pure a) post := h

theorem Plans.bind {action : PlanM α} {next : α → PlanM β} {mid : NameTable → α → Prop}
    {post : NameTable → β → Prop} (ha : Plans index before action mid)
    (hn : ∀ a after, mid after a → Plans index after (next a) post) :
    Plans index before (action >>= next) post := by
  unfold Plans at ha ⊢
  rw [StateT.run_bind]
  cases hr : action.run before with
  | error error =>
    rw [hr] at ha
    exact ha
  | ok result =>
    rw [hr] at ha
    exact hn result.1 result.2 ha

theorem Plans.imp {action : PlanM α} {post post' : NameTable → α → Prop}
    (h : Plans index before action post) (hp : ∀ a after, post after a → post' after a) :
    Plans index before action post' := by
  unfold Plans at h ⊢
  cases hr : action.run before with
  | error error =>
    rw [hr] at h
    exact h
  | ok result =>
    rw [hr] at h
    exact hp result.1 result.2 h

theorem lookUp_plans {written : Located} (stands : written.Stands index) :
    Plans index before (lookUp index written) fun after _ => after = before := by
  unfold Plans
  cases hd : deref index written with
  | error error =>
    have : (lookUp index written).run before = .error error := by
      simp [lookUp, hd]
    rw [this]
    exact broken_of_deref stands hd
  | ok part =>
    have : (lookUp index written).run before = .ok (part, before) := by
      simp [lookUp, hd]
    rw [this]

theorem assignName_plans {place : Pointer} (base : String)
    (unnamed : place ∉ before.entries.map (·.1)) :
    Plans index before (assignName place base) fun after name =>
      Extends before after [(place, name)] := by
  have none := NameTable.get?_eq_none_iff.2 unnamed
  change Extends before (before.assign place base).2 [(place, (before.assign place base).1)]
  rw [NameTable.assign_of_none base none]
  exact ⟨rfl, fun hv => hv.extended base none⟩

end

/-! ## Operations -/

/-- The places that an operation declares, with their names, in output order. -/
def Operation.declared (operation : Operation) : List (Pointer × String) :=
  (operation.parametersNamed.toList.map fun named => (named.pointer, named.name)) ++
    (operation.body.toList.map fun (_, named) => (named.pointer, named.name)) ++
    operation.responses.map fun response => (response.written.place, response.name)

structure Parameter.Stands (index : Index) (parameter : Parameter) : Prop where
  written : parameter.written.Stands index
  doc : Documented parameter.doc

structure Body.Stands (index : Index) (body : Body) : Prop where
  written : body.written.Stands index
  doc : Documented body.doc

structure Response.Stands (index : Index) (response : Response) : Prop where
  written : response.written.Stands index
  doc : Documented response.doc

/-- What an operation takes from the document stands there, and no parameter occurs twice. -/
structure Operation.Stands (index : Index) (operation : Operation) : Prop where
  parameters : ∀ parameter ∈ operation.parameters, parameter.Stands index
  distinct : operation.parameters.Pairwise fun p q => ¬(p.name = q.name ∧ p.location = q.location)
  body : ∀ body ∈ operation.body, body.1.Stands index
  responses : ∀ response ∈ operation.responses, response.Stands index
  doc : Documented operation.doc

namespace Operation

variable {index : Index} {before : NameTable}

theorem listedAt_stands {place : Pointer} : ∀ here ∈ listedAt index place, here.Stands index := by
  intro here hm
  unfold listedAt at hm
  split at hm
  · rename_i items hi
    obtain ⟨node, hn, ha⟩ := Option.bind_eq_some_iff.1 hi
    have array : node = .array items := by
      cases node <;> simp [Json.array?] at ha
      rw [ha]
    obtain ⟨⟨item, n⟩, hi, rfl⟩ := List.mem_map.1 hm
    have hitem : items[n]? = some item := by simpa using List.mem_zipIdx_iff_getElem?.1 hi
    exact Index.get?_element (array ▸ hn) hitem
  · cases hm

theorem writtenParameters_stand {place : Pointer} :
    ∀ here ∈ writtenParameters index place, here.Stands index := by
  intro here hm
  rcases List.mem_append.1 hm with hm | hm
  · cases hp : place.parent? with
    | none => simp [hp] at hm
    | some item =>
      rw [hp] at hm
      exact listedAt_stands here hm
  · exact listedAt_stands here hm

theorem entries_plans {written : List Located} (stand : ∀ here ∈ written, here.Stands index) :
    Plans index before (entries index written) fun after entries =>
      after = before ∧ ∀ entry ∈ entries, entry.written.Stands index := by
  induction written with
  | nil => exact .pure ⟨rfl, by simp⟩
  | cons first rest ih =>
    have rest_stand : ∀ here ∈ rest, here.Stands index := fun here hm =>
      stand here (List.mem_cons_of_mem _ hm)
    refine (lookUp_plans (stand first List.mem_cons_self)).bind ?_
    rintro part _ rfl
    refine (ih rest_stand).bind ?_
    rintro later _ ⟨rfl, hl⟩
    refine .pure ⟨rfl, fun entry hm => ?_⟩
    rcases List.mem_cons.1 hm with rfl | hm
    · exact stand first List.mem_cons_self
    · exact hl entry hm

theorem mem_override {parameters : List Parameter} {parameter other : Parameter}
    (h : other ∈ override parameters parameter) : other ∈ parameters ∨ other = parameter := by
  rcases List.mem_append.1 h with h | h
  · exact .inl ((List.mem_filter.1 h).1)
  · exact .inr (List.mem_singleton.1 h)

theorem mem_foldl_override {written start : List Parameter} {parameter : Parameter}
    (h : parameter ∈ written.foldl override start) : parameter ∈ start ∨ parameter ∈ written := by
  induction written generalizing start with
  | nil => exact .inl h
  | cons first rest ih =>
    rcases ih h with hm | hm
    · rcases mem_override hm with hm | rfl
      · exact .inl hm
      · exact .inr List.mem_cons_self
    · exact .inr (List.mem_cons_of_mem _ hm)

theorem mergeParameters_stand {entries : List Entry}
    (stand : ∀ entry ∈ entries, entry.written.Stands index) :
    ∀ parameter ∈ mergeParameters entries, parameter.Stands index := by
  intro parameter hm
  rcases mem_foldl_override hm with hm | hm
  · cases hm
  · obtain ⟨entry, he, rfl⟩ := List.mem_map.1 hm
    exact ⟨stand entry (List.mem_filter.1 he).1, documented_doc? entry.part⟩

theorem override_distinct {parameters : List Parameter} {parameter : Parameter}
    (h : parameters.Pairwise fun p q => ¬(p.name = q.name ∧ p.location = q.location)) :
    (override parameters parameter).Pairwise
      fun p q => ¬(p.name = q.name ∧ p.location = q.location) := by
  refine List.pairwise_append.2 ⟨h.filter _, by simp, ?_⟩
  intro p hm q hq
  have kept := (List.mem_filter.1 hm).2
  rw [List.mem_singleton.1 hq]
  rintro ⟨name, location⟩
  simp [name, location] at kept

theorem mergeParameters_distinct (entries : List Entry) :
    (mergeParameters entries).Pairwise fun p q => ¬(p.name = q.name ∧ p.location = q.location) := by
  have keeps (written start : List Parameter)
      (h : start.Pairwise fun p q => ¬(p.name = q.name ∧ p.location = q.location)) :
      (written.foldl override start).Pairwise
        fun p q => ¬(p.name = q.name ∧ p.location = q.location) := by
    induction written generalizing start with
    | nil => exact h
    | cons first rest ih => exact ih _ (override_distinct h)
  exact keeps _ [] .nil

theorem documented_docOf (node : Json) : Documented (docOf node) :=
  documented_nonempty? fun tag hm => .inl (deprecatedTags_documented node tag hm)

theorem bodyOf_plans {dialect : Dialect} {here : Located} (stands : here.Stands index)
    {entries : List Entry} (stand : ∀ entry ∈ entries, entry.written.Stands index) :
    Plans index before (bodyOf index dialect here entries) fun after body =>
      after = before ∧ ∀ b ∈ body, b.Stands index := by
  unfold bodyOf
  dsimp only
  split
  · rename_i node hn
    have written : Located.Stands index ⟨here.place.child "requestBody", node⟩ :=
      Index.get?_key stands hn
    refine (lookUp_plans written).bind ?_
    rintro part _ rfl
    refine .pure ⟨rfl, ?_⟩
    rintro b hb
    cases hb
    exact ⟨written, documented_doc? part⟩
  · refine .pure ⟨rfl, ?_⟩
    intro b hb
    obtain ⟨entry, he, rfl⟩ := Option.map_eq_some_iff.1 hb
    have written := stand entry (List.mem_filter.1 (List.mem_of_getLast? he)).1
    exact ⟨written, documented_doc? entry.part⟩

theorem nameIf_plans {present : Bool} {place : Pointer} (base : String)
    (unnamed : place ∉ before.entries.map (·.1)) :
    Plans index before (nameIf present place base) fun after named =>
      Extends before after (named.toList.map fun named => (named.pointer, named.name)) ∧
      named.isSome = present ∧
      ∀ entry ∈ named.toList.map fun named => (named.pointer, named.name), entry.1 = place := by
  cases present with
  | false => exact .pure ⟨.refl before, rfl, by simp⟩
  | true =>
    refine (assignName_plans base unnamed).bind fun name after h => .pure ⟨h, rfl, ?_⟩
    intro entry hm
    rw [List.mem_singleton.1 hm]

theorem responsesOf_plans {name : String} {place : Pointer} {fields : List (String × Json)}
    (stand : ∀ field ∈ fields, Located.Stands index ⟨place.child field.1, field.2⟩)
    (distinct : (fields.map (·.1)).Nodup)
    (unnamed : ∀ status ∈ fields.map (·.1), place.child status ∉ before.entries.map (·.1)) :
    Plans index before (responsesOf index name place fields) fun after responses =>
      Extends before after (responses.map fun response => (response.written.place, response.name)) ∧
      ∀ response ∈ responses, response.Stands index ∧
        ∃ status, response.written.place = place.child status := by
  induction fields generalizing before with
  | nil => exact .pure ⟨.refl before, by simp⟩
  | cons field rest ih =>
    obtain ⟨status, node⟩ := field
    obtain ⟨hne, distinct⟩ := List.nodup_cons.1 distinct
    have stand_rest : ∀ field ∈ rest, Located.Stands index ⟨place.child field.1, field.2⟩ :=
      fun field hm => stand field (List.mem_cons_of_mem _ hm)
    have unnamed_rest : ∀ status ∈ rest.map (·.1), place.child status ∉ before.entries.map (·.1) :=
      fun status hm => unnamed status (List.mem_cons_of_mem _ hm)
    unfold responsesOf
    split
    · exact ih stand_rest distinct unnamed_rest
    · have written := stand (status, node) List.mem_cons_self
      refine (lookUp_plans written).bind ?_
      rintro part _ rfl
      refine (assignName_plans _ (unnamed status List.mem_cons_self)).bind fun declared mid hmid => ?_
      refine (ih stand_rest distinct fun other hm => ?_).bind ?_
      · refine hmid.fresh (unnamed_rest other hm) ?_
        intro e
        have same : other = status := Pointer.child_inj (by simpa using e)
        exact hne (same ▸ hm)
      · rintro later after ⟨hl, stands⟩
        refine .pure ⟨hmid.trans hl, fun response hm => ?_⟩
        rcases List.mem_cons.1 hm with rfl | hm
        · exact ⟨⟨written, documented_doc? part⟩, status, rfl⟩
        · exact stands response hm

/-- A body is named exactly when there is one, so all that is named is declared with it. -/
theorem named_of_body {body : Option Body} {named : Option Named}
    (present : named.isSome = body.isSome) :
    (body.bind fun b => named.map fun name => (b, name)).toList.map
        (fun (_, name) => (name.pointer, name.name)) =
      named.toList.map fun name => (name.pointer, name.name) := by
  cases body with
  | none =>
    have none : named = none := by simpa using present
    rw [none]
    rfl
  | some b =>
    obtain ⟨n, rfl⟩ := Option.isSome_iff_exists.1 present
    rfl

/-- What an operation names are places within it. -/
theorem plan_plans {dialect : Dialect} {path method : String} {here : Located}
    (stands : here.Stands index)
    (unnamed : ∀ entry ∈ before.entries, ¬ here.place.segments <+: entry.1.segments) :
    Plans index before (plan index dialect path method here) fun after operation =>
      Extends before after operation.declared ∧ operation.Stands index ∧
      ∀ entry ∈ operation.declared, here.place.segments <+: entry.1.segments := by
  have outside : ∀ place, here.place.segments <+: place.segments →
      place ∉ before.entries.map (·.1) := by
    intro place within hm
    obtain ⟨entry, he, rfl⟩ := List.mem_map.1 hm
    exact unnamed entry he within
  have within_child : ∀ key, here.place.segments <+: (here.place.child key).segments :=
    fun key => List.prefix_append _ _
  refine (entries_plans writtenParameters_stand).bind ?_
  rintro entries _ ⟨rfl, entries_stand⟩
  refine (bodyOf_plans stands entries_stand).bind ?_
  rintro body _ ⟨rfl, body_stands⟩
  refine (nameIf_plans _ (outside _ (within_child "parameters"))).bind ?_
  rintro parametersNamed afterParameters ⟨hp, -, parameters_within⟩
  have body_fresh : here.place.child "requestBody" ∉ afterParameters.entries.map (·.1) := by
    refine hp.fresh (outside _ (within_child _)) fun hm => ?_
    obtain ⟨entry, he, same⟩ := List.mem_map.1 hm
    have := Pointer.child_inj ((parameters_within entry he).symm.trans same)
    revert this
    decide
  refine (nameIf_plans _ body_fresh).bind ?_
  rintro bodyNamed afterBody ⟨hb, bodySome, body_within⟩
  obtain ⟨fields_stand, fields_distinct⟩ := Index.fieldsUnder_stand "responses" stands rfl
  have named := hp.trans hb
  have statuses_fresh : ∀ status, (here.place.child "responses").child status ∉
      afterBody.entries.map (·.1) := by
    intro status
    refine named.fresh (outside _ ((within_child _).trans (List.prefix_append _ _))) fun hm => ?_
    obtain ⟨entry, he, same⟩ := List.mem_map.1 hm
    have longer := congrArg (fun place => place.segments.length) same
    rcases List.mem_append.1 he with he | he
    · simp [parameters_within entry he, Pointer.child] at longer
    · simp [body_within entry he, Pointer.child] at longer
  refine (responsesOf_plans fields_stand fields_distinct fun status _ =>
    statuses_fresh status).bind ?_
  rintro responses after ⟨hr, responses_stand⟩
  have body_declared := named_of_body bodySome
  refine .pure ⟨?_, ⟨mergeParameters_stand entries_stand, mergeParameters_distinct entries, ?_, ?_,
    documented_docOf here.node⟩, ?_⟩
  · rw [Operation.declared, body_declared]
    exact named.trans hr
  · intro pair hm
    obtain ⟨b, hbody, hm⟩ := Option.bind_eq_some_iff.1 hm
    obtain ⟨n, -, rfl⟩ := Option.map_eq_some_iff.1 hm
    exact body_stands b hbody
  · exact fun response hm => (responses_stand response hm).1
  · intro entry hm
    rw [Operation.declared, body_declared, List.mem_append, List.mem_append] at hm
    rcases hm with (hm | hm) | hm
    · rw [parameters_within entry hm]
      exact within_child _
    · rw [body_within entry hm]
      exact within_child _
    · obtain ⟨response, hmem, rfl⟩ := List.mem_map.1 hm
      obtain ⟨-, status, place⟩ := responses_stand response hmem
      rw [place]
      exact (within_child _).trans (List.prefix_append _ _)

end Operation

/-! ## Candidates -/

/-- The places that a candidate declares, with their names, in output order. -/
def Candidate.declared : Candidate → List (Pointer × String)
  | .component here _ name => [(here.place, name)]
  | .operation planned => planned.declared

def Candidate.Stands (index : Index) : Candidate → Prop
  | .component here _ _ => here.Stands index
  | .operation planned => planned.Stands index

/-- The location whose candidate may name a place. -/
def ownerOf (place : Pointer) : Pointer :=
  ⟨place.segments.take 3⟩

theorem ownerOf_component {dialect : Dialect} {rawSchema : Bool} {place : Pointer}
    {kind : DeclarationKind} (h : componentKind? dialect rawSchema place = some kind) :
    ownerOf place = place := by
  have short : place.segments.length ≤ 3 := by
    unfold componentKind? at h
    split at h
    · split at h
      · rename_i one
        have : place.segments.length = 1 := one
        omega
      · cases h
    · split at h <;> first | cases h; done | simp_all
  simp [ownerOf, List.take_of_length_le short]

theorem ownerOf_operation {place inside : Pointer} {path method : String}
    (h : operationAt? place = some (path, method)) (within : place.segments <+: inside.segments) :
    ownerOf inside = place := by
  have segments : ∃ p m, place.segments = ["paths", p, m] := by
    unfold operationAt? at h
    split at h
    · rename_i p m hs
      exact ⟨p, m, hs⟩
    · cases h
  obtain ⟨p, m, hs⟩ := segments
  obtain ⟨rest, he⟩ := within
  have first : inside.segments.take 3 = place.segments := by
    rw [← he, hs]
    rfl
  rw [ownerOf, first]

section
variable {index : Index} {before : NameTable} {dialect : Dialect} {rawSchema : Bool}

theorem candidateAt_plans {here : Located} (stands : here.Stands index)
    (unnamed : ∀ entry ∈ before.entries, ownerOf entry.1 ≠ here.place) :
    Plans index before (candidateAt index dialect rawSchema here) fun after candidate =>
      Extends before after (candidate.toList.flatMap Candidate.declared) ∧
      (∀ c ∈ candidate, c.Stands index) ∧
      ∀ entry ∈ candidate.toList.flatMap Candidate.declared, ownerOf entry.1 = here.place := by
  unfold candidateAt
  split
  · rename_i kind hk
    have fresh : here.place ∉ before.entries.map (·.1) := by
      intro hm
      obtain ⟨entry, he, same⟩ := List.mem_map.1 hm
      exact unnamed entry he (by rw [same, ownerOf_component hk])
    refine (assignName_plans _ fresh).bind fun name after h => .pure ⟨?_, ?_, ?_⟩
    · simpa [Candidate.declared] using h
    · rintro c hc
      cases hc
      exact stands
    · intro entry hm
      simp only [Option.toList_some, List.flatMap_singleton, Candidate.declared,
        List.mem_singleton] at hm
      rw [hm]
      exact ownerOf_component hk
  · have nothing : Plans index before (pure (none : Option Candidate)) fun after candidate =>
        Extends before after (candidate.toList.flatMap Candidate.declared) ∧
        (∀ c ∈ candidate, c.Stands index) ∧
        ∀ entry ∈ candidate.toList.flatMap Candidate.declared, ownerOf entry.1 = here.place :=
      .pure ⟨.refl before, by simp, by simp⟩
    split
    · exact nothing
    · split
      · rename_i path method ho
        have outside : ∀ entry ∈ before.entries, ¬ here.place.segments <+: entry.1.segments :=
          fun entry he within => unnamed entry he (ownerOf_operation ho within)
        refine (Operation.plan_plans stands outside).bind ?_
        rintro operation after ⟨extends_, operation_stands, within⟩
        refine .pure ⟨by simpa [Candidate.declared] using extends_, ?_, ?_⟩
        · rintro c hc
          cases hc
          exact operation_stands
        · intro entry hm
          refine ownerOf_operation ho (within entry ?_)
          simpa [Candidate.declared] using hm
      · exact nothing

theorem candidates_plans {locations : List (Pointer × Json)}
    (stand : ∀ location ∈ locations, index.get? location.1 = some location.2)
    (distinct : (locations.map (·.1)).Nodup)
    (unnamed : ∀ entry ∈ before.entries, ownerOf entry.1 ∉ locations.map (·.1)) :
    Plans index before (candidates index dialect rawSchema locations) fun after candidates =>
      Extends before after (candidates.flatMap Candidate.declared) ∧
      ∀ c ∈ candidates, c.Stands index := by
  induction locations generalizing before with
  | nil => exact .pure ⟨.refl before, by simp⟩
  | cons location rest ih =>
    obtain ⟨place, node⟩ := location
    obtain ⟨hne, distinct⟩ := List.nodup_cons.1 distinct
    have first_unnamed : ∀ entry ∈ before.entries, ownerOf entry.1 ≠ place :=
      fun entry he same => unnamed entry he (same ▸ List.mem_cons_self)
    have first_stands : Located.Stands index ⟨place, node⟩ := stand _ List.mem_cons_self
    refine (candidateAt_plans first_stands first_unnamed).bind ?_
    rintro candidate mid ⟨hmid, candidate_stands, owned⟩
    have rest_unnamed : ∀ entry ∈ mid.entries, ownerOf entry.1 ∉ rest.map (·.1) := by
      intro entry he
      rw [hmid.entries] at he
      rcases List.mem_append.1 he with he | he
      · exact fun hm => unnamed entry he (List.mem_cons_of_mem _ hm)
      · rw [owned entry he]
        exact hne
    refine (ih (fun l hm => stand l (List.mem_cons_of_mem _ hm)) distinct rest_unnamed).bind ?_
    rintro later after ⟨hl, later_stand⟩
    refine .pure ⟨?_, fun c hm => ?_⟩
    · rw [List.flatMap_append]
      exact hmid.trans hl
    · rcases List.mem_append.1 hm with hm | hm
      · exact candidate_stands c (by simpa using hm)
      · exact later_stand c hm

/-- The names of a document before typing are those that its candidates declare, in their order. -/
theorem candidates_planned :
    Plans index {} (candidates index dialect rawSchema index.locations) fun after candidates =>
      after.Valid ∧ after.entries = candidates.flatMap Candidate.declared ∧
      ∀ c ∈ candidates, c.Stands index := by
  have stand : ∀ location ∈ index.locations, index.get? location.1 = some location.2 :=
    fun _ hm => Index.get?_of_mem_locations hm
  refine (candidates_plans stand index.locations_nodup (by simp)).imp ?_
  rintro candidates after ⟨h, candidates_stand⟩
  exact ⟨h.valid NameTable.valid_empty, by simpa using h.entries, candidates_stand⟩

/-- In a bare map of schemas the candidates are its entries. -/
theorem candidates_raw {locations : List (Pointer × Json)} :
    Plans index before (candidates index dialect true locations) fun _ candidates =>
      (∀ candidate ∈ candidates, ∃ here name, candidate = .component here .schema name) ∧
      ∀ location ∈ locations, location.1.depth = 1 →
        ∃ name, .component ⟨location.1, location.2⟩ .schema name ∈ candidates := by
  induction locations generalizing before with
  | nil => exact .pure ⟨by simp, by simp⟩
  | cons location rest ih =>
    obtain ⟨place, node⟩ := location
    have first : Plans index before (candidateAt index dialect true ⟨place, node⟩)
        fun _ candidate =>
          (∀ c ∈ candidate, ∃ here name, c = .component here .schema name) ∧
          (place.depth = 1 → ∃ name, candidate = some (.component ⟨place, node⟩ .schema name)) := by
      unfold candidateAt
      by_cases top : place.depth = 1
      · have kind : componentKind? dialect true place = some .schema := by
          simp [componentKind?, top]
        simp only [kind]
        have named : Plans index before (assignName place (place.last?.getD "")) fun _ _ => True :=
          trivial
        refine named.bind fun name _ _ => .pure ⟨?_, fun _ => ⟨name, rfl⟩⟩
        rintro c hc
        cases hc
        exact ⟨_, name, rfl⟩
      · have kind : componentKind? dialect true place = none := by
          simp [componentKind?, top]
        simp only [kind, ↓reduceIte]
        exact .pure ⟨by simp, fun h => absurd h top⟩
    refine first.bind ?_
    rintro candidate mid ⟨shaped, found⟩
    refine ih.bind ?_
    rintro later _ ⟨later_shaped, later_found⟩
    refine .pure ⟨?_, ?_⟩
    · intro c hm
      rcases List.mem_append.1 hm with hm | hm
      · exact shaped c (by simpa using hm)
      · exact later_shaped c hm
    · intro other hm top
      rcases List.mem_cons.1 hm with rfl | hm
      · obtain ⟨name, rfl⟩ := found top
        exact ⟨name, List.mem_cons_self⟩
      · obtain ⟨name, hname⟩ := later_found other hm top
        exact ⟨name, List.mem_append_right _ hname⟩

end

end ApiTypes.Api
