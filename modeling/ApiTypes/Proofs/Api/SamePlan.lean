import ApiTypes.Api.Assembly
import ApiTypes.Proofs.Api.Outline
import ApiTypes.Proofs.Typing.SameShape

/-!
# Planning respelled documents

Respelled documents have the same candidates (`candidates_met`): the same parts at the same places,
under the same names, and operations that only differ in the nodes their parts are written as.
-/

namespace ApiTypes.Api

open Relator

/-! ## Parts -/

/-- The places that parts are read from: those of named parts, of what is written for an operation,
and on along references. -/
inductive IsPart (index : Index) (dialect : Dialect) (rawSchema : Bool) : Pointer → Prop
  | component {place : Pointer} {kind : DeclarationKind}
      (named : componentKind? dialect rawSchema place = some kind) (other : kind ≠ .schema) :
      IsPart index dialect rawSchema place
  | parameter {place : Pointer} {key : String × String} (api : rawSchema = false)
      (operation : operationAt? place = some key) {written : Located}
      (listed : written ∈ Operation.writtenParameters index place) :
      IsPart index dialect rawSchema written.place
  | body {place : Pointer} {key : String × String} (api : rawSchema = false)
      (operation : operationAt? place = some key) :
      IsPart index dialect rawSchema (place.child "requestBody")
  | response {place : Pointer} {key : String × String} (api : rawSchema = false)
      (operation : operationAt? place = some key) (status : String) :
      IsPart index dialect rawSchema ((place.child "responses").child status)
  | link {place target : Pointer} (part : IsPart index dialect rawSchema place)
      (leads : index.Link place target) : IsPart index dialect rawSchema target

/-- The nodes at one place, which has a role in the first document. -/
structure LocatedMet (index index' : Index) (role : Pointer → Prop) (here here' : Located) :
    Prop where
  place : here'.place = here.place
  both : index.Both index' here.place here.node here'.node
  role : role here.place

/-- Where a chain of references comes to, in both documents. -/
inductive AnswerMet {α : Type} (index index' : Index) (role : Pointer → Prop) :
    α ⊕ Located → α ⊕ Located → Prop
  | stopped (answer : α) : AnswerMet index index' role (.inl answer) (.inl answer)
  | arrived {here here' : Located} (met : LocatedMet index index' role here here') :
      AnswerMet index index' role (.inr here) (.inr here')

section
variable {index index' : Index} (respelled : index.Respelled index') {role : Pointer → Prop}
include respelled

/-- References at one place are followed to one place. -/
theorem follows_met {here here' : Located} (met : LocatedMet index index' role here here')
    {reference : String} (hr : Schema.reference? here.node = some reference)
    {target : index.Target} (ht : index.resolve reference here.place = .ok target) :
    ∃ reference' target', Schema.reference? here'.node = some reference' ∧
      index'.resolve reference' here.place = .ok target' ∧ target'.pointer = target.pointer ∧
      index.Both index' target.pointer target.node target'.node := by
  have there := met.both.reference?_rel respelled
  rw [hr] at there
  obtain ⟨other, -⟩ | ⟨_, reference', -, hr', -⟩ := rel_cases there
  · cases other
  · obtain ⟨target', ht', same, both⟩ := met.both.resolve respelled hr hr' ht
    exact ⟨reference', target', hr', ht', same, both⟩

theorem followChain_met {α : Type} (links : ∀ place target, role place → index.Link place target →
      role target) (stop? : Pointer → Option α) (seen : List Pointer) {here here' : Located}
    (met : LocatedMet index index' role here here') {answer : α ⊕ Located}
    (h : followChain index stop? seen here = .ok answer) :
    ∃ answer', followChain index' stop? seen here' = .ok answer' ∧
      AnswerMet index index' role answer answer' := by
  obtain ⟨place', node'⟩ := here'
  obtain rfl : place' = here.place := met.place
  fun_induction followChain index stop? seen here generalizing node' with
  | case1 seen here hr =>
    cases h
    have plain := met.both.reference?_rel respelled
    rw [hr] at plain
    obtain ⟨-, hr'⟩ | ⟨_, _, other, -⟩ := rel_cases plain
    · refine ⟨.inr ⟨here.place, node'⟩, ?_, .arrived met⟩
      rw [followChain, hr']
    · cases other
  | case2 seen here reference hr error he => cases h
  | case4 seen here reference hr target ht hs cycle => cases h
  | case3 seen here reference hr target ht answer hs =>
    cases h
    obtain ⟨reference', target', hr', ht', same, -⟩ := follows_met respelled met hr ht
    refine ⟨.inl answer, ?_, .stopped answer⟩
    rw [followChain, hr']
    dsimp only
    rw [ht']
    dsimp only
    rw [same, hs]
  | case5 seen here reference hr target ht hs fresh ih =>
    obtain ⟨reference', target', hr', ht', same, met'⟩ := follows_met respelled met hr ht
    have link := link_of_resolve met.both.left hr ht
    obtain ⟨answer', found, met''⟩ :=
      ih h target'.node ⟨rfl, met', links _ _ met.role link⟩
    refine ⟨answer', ?_, met''⟩
    obtain ⟨pointer, node, stands⟩ := target'
    obtain rfl : pointer = target.pointer := same
    rw [followChain, hr']
    dsimp only
    rw [ht']
    dsimp only
    rw [hs]
    dsimp only
    split
    · rename_i passed
      cases fresh.symm.trans passed
    · exact found

theorem deref_met (links : ∀ place target, role place → index.Link place target → role target)
    {here here' : Located} (met : LocatedMet index index' role here here') {part : Json}
    (h : deref index here = .ok part) :
    ∃ part' place, deref index' here' = .ok part' ∧ role place ∧
      index.Both index' place part part' := by
  unfold deref at h
  cases hf : followChain index (fun _ => (none : Option Empty)) [] here with
  | error error =>
    rw [hf] at h
    cases h
  | ok answer =>
    rw [hf] at h
    obtain ⟨answer', found, met'⟩ := followChain_met respelled links _ [] met hf
    cases met' with
    | stopped answer => exact answer.elim
    | @arrived there there' met' =>
      cases h
      exact ⟨there'.node, there.place, by rw [deref, found]; rfl, met'.role, met'.both⟩

end

/-! ## Operations -/

section
variable (index index' : Index) (dialect : Dialect) (rawSchema : Bool)

/-- What a written part is read from is read in both documents. -/
abbrev PartMet : Located → Located → Prop :=
  LocatedMet index index' (IsPart index dialect rawSchema)

structure EntryMet (entry entry' : Operation.Entry) : Prop where
  written : PartMet index index' dialect rawSchema entry.written entry'.written
  part : ∃ place, IsPart index dialect rawSchema place ∧
    index.Both index' place entry.part entry'.part

structure ParameterMet (parameter parameter' : Parameter) : Prop where
  name : parameter'.name = parameter.name
  location : parameter'.location = parameter.location
  required : parameter'.required = parameter.required
  written : PartMet index index' dialect rawSchema parameter.written parameter'.written
  doc : parameter'.doc = parameter.doc

structure BodyMet (body body' : Body) : Prop where
  written : PartMet index index' dialect rawSchema body.written body'.written
  part : body'.part = body.part
  required : body'.required = body.required
  doc : body'.doc = body.doc

structure ResponseMet (response response' : Response) : Prop where
  status : response'.status = response.status
  written : PartMet index index' dialect rawSchema response.written response'.written
  doc : response'.doc = response.doc
  name : response'.name = response.name

structure OperationMet (operation operation' : Operation) : Prop where
  path : operation'.path = operation.path
  method : operation'.method = operation.method
  doc : operation'.doc = operation.doc
  parameters : List.Forall₂ (ParameterMet index index' dialect rawSchema) operation.parameters
    operation'.parameters
  parametersNamed : operation'.parametersNamed = operation.parametersNamed
  body : Option.Rel (fun body body' => BodyMet index index' dialect rawSchema body.1 body'.1 ∧
    body'.2 = body.2) operation.body operation'.body
  responses : List.Forall₂ (ResponseMet index index' dialect rawSchema) operation.responses
    operation'.responses

/-- Parts have the same documentation in both documents. -/
def PartsReadAlike : Prop :=
  ∀ place node node', IsPart index dialect rawSchema place → index.Both index' place node node' →
    Schema.doc? node' = Schema.doc? node

end

namespace Operation

section
variable {index index' : Index} (respelled : index.Respelled index') {dialect : Dialect}
  {rawSchema : Bool}
include respelled

theorem listedAt_met (place : Pointer) :
    List.Forall₂ (LocatedMet index index' fun _ => True) (listedAt index place)
      (listedAt index' place) := by
  unfold listedAt
  have listed := bind_rel (respelled.both place) fun _ _ both => both.array?_rel respelled
  rcases rel_cases listed with ⟨h, h'⟩ | ⟨items, items', h, h', both⟩
  · rw [h, h']
    exact .nil
  · rw [h, h']
    have length : items.length = items'.length := both.alike respelled
    refine List.forall₂_iff_get.2 ⟨by simpa using length, fun number hn hn' => ?_⟩
    simp only [List.length_map, List.length_zipIdx] at hn hn'
    have element := both.element_rel respelled number
    rw [List.getElem?_eq_getElem hn, List.getElem?_eq_getElem hn'] at element
    cases element with
    | some element =>
      simp only [List.get_eq_getElem, List.getElem_map, List.getElem_zipIdx, Nat.zero_add]
      exact ⟨rfl, element, trivial⟩

theorem writtenParameters_met {place : Pointer} {key : String × String} (api : rawSchema = false)
    (operation : operationAt? place = some key) :
    List.Forall₂ (PartMet index index' dialect rawSchema) (writtenParameters index place)
      (writtenParameters index' place) := by
  have listed : List.Forall₂ (LocatedMet index index' fun _ => True)
      (writtenParameters index place) (writtenParameters index' place) := by
    refine List.rel_append ?_ (listedAt_met respelled _)
    cases place.parent? with
    | none => exact .nil
    | some item => exact listedAt_met respelled _
  refine forall₂_imp_of_mem listed fun here hm here' _ met => ⟨met.place, met.both, ?_⟩
  exact .parameter api operation hm

theorem lookUp_met {here here' : Located} (met : PartMet index index' dialect rawSchema here here')
    {part : Json} {before after : NameTable}
    (run : (lookUp index here).run before = .ok (part, after)) :
    ∃ part' place, (lookUp index' here').run before = .ok (part', after) ∧
      IsPart index dialect rawSchema place ∧ index.Both index' place part part' := by
  obtain ⟨found, rfl⟩ := lookUp_gives run
  obtain ⟨part', place, found', role, both⟩ :=
    deref_met respelled (fun _ _ => .link) met found
  exact ⟨part', place, by simp [lookUp, found'], role, both⟩

theorem entries_met {written written' : List Located}
    (h : List.Forall₂ (PartMet index index' dialect rawSchema) written written')
    {found : List Entry} {before after : NameTable}
    (run : (entries index written).run before = .ok (found, after)) :
    ∃ found', (entries index' written').run before = .ok (found', after) ∧
      List.Forall₂ (EntryMet index index' dialect rawSchema) found found' := by
  induction h generalizing found before after with
  | nil =>
    obtain ⟨rfl, rfl⟩ := run_pure_eq_ok.1 run
    exact ⟨[], rfl, .nil⟩
  | @cons here here' rest rest' met _ ih =>
    obtain ⟨part, _, hp, run⟩ := run_bind_eq_ok.1 run
    obtain ⟨later, _, hl, run⟩ := run_bind_eq_ok.1 run
    obtain ⟨rfl, rfl⟩ := run_pure_eq_ok.1 run
    obtain ⟨part', place, hp', role, both⟩ := lookUp_met respelled met hp
    obtain ⟨later', hl', others⟩ := ih hl
    refine ⟨⟨here', part'⟩ :: later', ?_, .cons ⟨met, place, role, both⟩ others⟩
    exact run_bind_eq_ok.2 ⟨part', _, hp', run_bind_eq_ok.2 ⟨later', _, hl', rfl⟩⟩

theorem EntryMet.text?_eq {entry entry' : Entry}
    (met : EntryMet index index' dialect rawSchema entry entry') {key : String}
    (other : key ≠ "$ref") : entry'.part.text? key = entry.part.text? key := by
  obtain ⟨_, -, both⟩ := met.part
  exact both.text?_eq respelled other

theorem EntryMet.location_eq {entry entry' : Entry}
    (met : EntryMet index index' dialect rawSchema entry entry') :
    entry'.location = entry.location := by
  unfold Entry.location
  rw [EntryMet.text?_eq respelled met (by simp)]

theorem EntryMet.parameter {entry entry' : Entry}
    (met : EntryMet index index' dialect rawSchema entry entry')
    (alike : PartsReadAlike index index' dialect rawSchema) :
    ParameterMet index index' dialect rawSchema entry.parameter entry'.parameter := by
  obtain ⟨place, role, both⟩ := met.part
  refine ⟨?_, EntryMet.location_eq respelled met, both.flag_eq respelled _, met.written,
    alike place _ _ role both⟩
  unfold Entry.parameter
  rw [EntryMet.text?_eq respelled met (by simp)]

theorem EntryMet.body {entry entry' : Entry}
    (met : EntryMet index index' dialect rawSchema entry entry')
    (alike : PartsReadAlike index index' dialect rawSchema) :
    BodyMet index index' dialect rawSchema entry.body entry'.body := by
  obtain ⟨place, role, both⟩ := met.part
  exact ⟨met.written, rfl, both.flag_eq respelled _, alike place _ _ role both⟩

variable (alike : PartsReadAlike index index' dialect rawSchema)
include alike

omit respelled alike in
theorem override_met : (List.Forall₂ (ParameterMet index index' dialect rawSchema) ⇒
    ParameterMet index index' dialect rawSchema ⇒
    List.Forall₂ (ParameterMet index index' dialect rawSchema)) override override := by
  intro parameters parameters' h parameter parameter' met
  refine List.rel_append (List.rel_filter ?_ h) (.cons met .nil)
  intro other other' met'
  dsimp only
  rw [met'.name, met'.location, met.name, met.location]

theorem mergeParameters_met {found found' : List Entry}
    (h : List.Forall₂ (EntryMet index index' dialect rawSchema) found found') :
    List.Forall₂ (ParameterMet index index' dialect rawSchema) (mergeParameters found)
      (mergeParameters found') := by
  refine List.rel_foldl override_met .nil (List.rel_map ?_ (List.rel_filter ?_ h))
  · exact fun _ _ met => EntryMet.parameter respelled met alike
  · intro entry entry' met
    simp only [Entry.isBody, EntryMet.location_eq respelled met]

theorem bodyOf_met {here here' : Located} (met : LocatedMet index index' (fun _ => True) here here')
    (api : rawSchema = false) {key : String × String}
    (operation : operationAt? here.place = some key) {found found' : List Entry}
    (h : List.Forall₂ (EntryMet index index' dialect rawSchema) found found') {body : Option Body}
    {before after : NameTable}
    (run : (bodyOf index dialect here found).run before = .ok (body, after)) :
    ∃ body', (bodyOf index' dialect here' found').run before = .ok (body', after) ∧
      Option.Rel (BodyMet index index' dialect rawSchema) body body' := by
  have of_parameters : Option.Rel (BodyMet index index' dialect rawSchema)
      ((found.filter Entry.isBody).getLast?.map Entry.body)
      ((found'.filter Entry.isBody).getLast?.map Entry.body) := by
    have filtered : List.Forall₂ (EntryMet index index' dialect rawSchema)
        (found.filter Entry.isBody) (found'.filter Entry.isBody) := by
      refine List.rel_filter ?_ h
      intro entry entry' met
      simp only [Entry.isBody, EntryMet.location_eq respelled met]
    rcases rel_cases (getLast?_rel filtered) with ⟨h, h'⟩ | ⟨entry, entry', h, h', met⟩
    · rw [h, h']
      exact .none
    · rw [h, h']
      exact .some (EntryMet.body respelled met alike)
  unfold bodyOf at run ⊢
  cases dialect with
  | swagger2 =>
    obtain ⟨rfl, rfl⟩ := run_pure_eq_ok.1 run
    exact ⟨_, rfl, of_parameters⟩
  | openApi3 =>
    rcases rel_cases (met.both.get?_rel respelled "requestBody") with
      ⟨h, h'⟩ | ⟨node, node', h, h', written⟩
    · rw [h] at run
      rw [h']
      obtain ⟨rfl, rfl⟩ := run_pure_eq_ok.1 run
      exact ⟨_, rfl, of_parameters⟩
    · rw [h] at run
      rw [h', met.place]
      have part_met : PartMet index index' .openApi3 rawSchema
          ⟨here.place.child "requestBody", node⟩ ⟨here.place.child "requestBody", node'⟩ :=
        ⟨rfl, written, .body api operation⟩
      obtain ⟨part, _, hp, run⟩ := run_bind_eq_ok.1 run
      obtain ⟨rfl, rfl⟩ := run_pure_eq_ok.1 run
      obtain ⟨part', there, hp', role, both⟩ := lookUp_met respelled part_met hp
      refine ⟨_, run_bind_eq_ok.2 ⟨part', _, hp', rfl⟩, .some ?_⟩
      exact ⟨part_met, rfl, both.flag_eq respelled _, alike there _ _ role both⟩

theorem responsesOf_met (name : String) {place : Pointer} {key : String × String}
    (api : rawSchema = false) (operation : operationAt? place = some key)
    {fields fields' : List (String × Json)}
    (h : List.Forall₂ (fun field field' => field'.1 = field.1 ∧
      index.Both index' ((place.child "responses").child field.1) field.2 field'.2) fields fields')
    {responses : List Response} {before after : NameTable}
    (run : (responsesOf index name (place.child "responses") fields).run before =
      .ok (responses, after)) :
    ∃ responses', (responsesOf index' name (place.child "responses") fields').run before =
        .ok (responses', after) ∧
      List.Forall₂ (ResponseMet index index' dialect rawSchema) responses responses' := by
  induction h generalizing responses before after with
  | nil =>
    obtain ⟨rfl, rfl⟩ := run_pure_eq_ok.1 run
    exact ⟨[], rfl, .nil⟩
  | @cons field field' rest rest' first _ ih =>
    obtain ⟨status, node⟩ := field
    obtain ⟨status', node'⟩ := field'
    obtain ⟨rfl, both⟩ := first
    unfold responsesOf at run ⊢
    split at run
    · rename_i other
      rw [if_pos other]
      exact ih run
    · rename_i isStatus
      rw [if_neg isStatus]
      have met : PartMet index index' dialect rawSchema
          ⟨(place.child "responses").child status', node⟩
          ⟨(place.child "responses").child status', node'⟩ :=
        ⟨rfl, both, .response api operation status'⟩
      obtain ⟨part, _, hp, run⟩ := run_bind_eq_ok.1 run
      obtain ⟨declared, _, hd, run⟩ := run_bind_eq_ok.1 run
      obtain ⟨later, _, hl, run⟩ := run_bind_eq_ok.1 run
      obtain ⟨rfl, rfl⟩ := run_pure_eq_ok.1 run
      obtain ⟨part', there, hp', role, both'⟩ := lookUp_met respelled met hp
      obtain ⟨later', hl', others⟩ := ih hl
      refine ⟨_, run_bind_eq_ok.2 ⟨part', _, hp', run_bind_eq_ok.2 ⟨declared, _, hd,
        run_bind_eq_ok.2 ⟨later', _, hl', rfl⟩⟩⟩, .cons ?_ others⟩
      exact ⟨rfl, met, alike there _ _ role both', rfl⟩

omit alike in
theorem docOf_eq {place : Pointer} {node node' : Json} (both : index.Both index' place node node') :
    docOf node' = docOf node := by
  unfold docOf Schema.proseUnder Schema.deprecatedTags
  rw [both.text?_eq respelled (by simp : "summary" ≠ "$ref"),
    both.text?_eq respelled (by simp : "description" ≠ "$ref"), both.flag_eq respelled]

omit alike in
theorem baseName_eq {place : Pointer} {node node' : Json}
    (both : index.Both index' place node node') (path method : String) :
    baseName path method node' = baseName path method node := by
  unfold baseName
  rw [both.text?_eq respelled (by simp)]

omit alike in
theorem fieldsUnder_met {place : Pointer} {node node' : Json}
    (both : index.Both index' place node node') (key : String) :
    List.Forall₂ (fun field field' => field'.1 = field.1 ∧
        index.Both index' ((place.child key).child field.1) field.2 field'.2)
      (((node.get? key).bind Json.object?).getD [])
      (((node'.get? key).bind Json.object?).getD []) := by
  rcases rel_cases (Schema.object?_rel respelled both key) with
    ⟨h, h'⟩ | ⟨fields, fields', h, h', inner⟩
  · rw [h, h']
    exact .nil
  · rw [h, h']
    exact inner.fields_rel respelled

theorem plan_met {path method : String} {here here' : Located}
    (met : LocatedMet index index' (fun _ => True) here here') (api : rawSchema = false)
    {key : String × String} (at_place : operationAt? here.place = some key) {operation : Operation}
    {before after : NameTable}
    (run : (plan index dialect path method here).run before = .ok (operation, after)) :
    ∃ operation', (plan index' dialect path method here').run before = .ok (operation', after) ∧
      OperationMet index index' dialect rawSchema operation operation' := by
  unfold plan at run ⊢
  rw [baseName_eq respelled met.both, met.place]
  obtain ⟨found, _, hf, run⟩ := run_bind_eq_ok.1 run
  obtain ⟨body, _, hb, run⟩ := run_bind_eq_ok.1 run
  obtain ⟨parametersNamed, _, hp, run⟩ := run_bind_eq_ok.1 run
  obtain ⟨bodyNamed, _, hn, run⟩ := run_bind_eq_ok.1 run
  obtain ⟨responses, _, hr, run⟩ := run_bind_eq_ok.1 run
  obtain ⟨rfl, rfl⟩ := run_pure_eq_ok.1 run
  obtain ⟨found', hf', entries⟩ :=
    entries_met respelled (writtenParameters_met respelled api at_place) hf
  obtain ⟨body', hb', bodies⟩ := bodyOf_met respelled alike met api at_place entries hb
  obtain ⟨responses', hr', listed⟩ :=
    responsesOf_met respelled alike _ api at_place (fieldsUnder_met respelled met.both _) hr
  -- the names that are given do not depend on the nodes, so both runs give the same ones
  have parameters := mergeParameters_met respelled alike entries
  have present : body'.isSome = body.isSome := by
    cases bodies <;> rfl
  rw [← isEmpty_eq_of_forall₂ parameters] at hp
  rw [← present] at hn
  refine ⟨_, run_bind_eq_ok.2 ⟨found', _, hf', run_bind_eq_ok.2 ⟨body', _, hb',
    run_bind_eq_ok.2 ⟨parametersNamed, _, hp, run_bind_eq_ok.2 ⟨bodyNamed, _, hn,
      run_bind_eq_ok.2 ⟨responses', _, hr', rfl⟩⟩⟩⟩⟩, ?_⟩
  refine ⟨rfl, rfl, docOf_eq respelled met.both, parameters, rfl, ?_, listed⟩
  cases bodies with
  | none => exact .none
  | some met =>
    cases bodyNamed with
    | none => exact .none
    | some named => exact .some ⟨met, rfl⟩

end

end Operation

/-! ## Candidates -/

section
variable (index index' : Index) (dialect : Dialect) (rawSchema : Bool)

/-- The same candidate in both documents. -/
inductive CandidateMet : Candidate → Candidate → Prop
  | component {here here' : Located} {kind : DeclarationKind} (name : String)
      (met : LocatedMet index index'
        (fun place => componentKind? dialect rawSchema place = some kind) here here') :
      CandidateMet (.component here kind name) (.component here' kind name)
  | operation {operation operation' : Operation}
      (met : OperationMet index index' dialect rawSchema operation operation') :
      CandidateMet (.operation operation) (.operation operation')

end

section
variable {index index' : Index} (respelled : index.Respelled index') {dialect : Dialect}
  {rawSchema : Bool}
include respelled

theorem candidateAt_met (alike : PartsReadAlike index index' dialect rawSchema)
    {here here' : Located} (met : LocatedMet index index' (fun _ => True) here here')
    {candidate : Option Candidate} {before after : NameTable}
    (run : (candidateAt index dialect rawSchema here).run before = .ok (candidate, after)) :
    ∃ candidate', (candidateAt index' dialect rawSchema here').run before =
        .ok (candidate', after) ∧
      Option.Rel (CandidateMet index index' dialect rawSchema) candidate candidate' := by
  unfold candidateAt at run ⊢
  rw [met.place]
  split at run
  · rename_i kind named
    obtain ⟨name, _, ha, run⟩ := run_bind_eq_ok.1 run
    obtain ⟨rfl, rfl⟩ := run_pure_eq_ok.1 run
    refine ⟨_, run_bind_eq_ok.2 ⟨name, _, ha, rfl⟩, .some (.component name ?_)⟩
    exact ⟨met.place, met.both, named⟩
  · split at run
    · rename_i raw
      rw [if_pos raw]
      obtain ⟨rfl, rfl⟩ := run_pure_eq_ok.1 run
      exact ⟨none, rfl, .none⟩
    · rename_i api
      rw [if_neg api]
      split at run
      · rename_i path method at_place
        obtain ⟨operation, _, hp, run⟩ := run_bind_eq_ok.1 run
        obtain ⟨rfl, rfl⟩ := run_pure_eq_ok.1 run
        obtain ⟨operation', hp', same⟩ :=
          Operation.plan_met respelled alike met (Bool.eq_false_iff.2 api) at_place hp
        exact ⟨_, run_bind_eq_ok.2 ⟨operation', _, hp', rfl⟩, .some (.operation same)⟩
      · obtain ⟨rfl, rfl⟩ := run_pure_eq_ok.1 run
        exact ⟨none, rfl, .none⟩

theorem candidates_met (alike : PartsReadAlike index index' dialect rawSchema)
    {locations locations' : List (Pointer × Json)}
    (h : List.Forall₂ (fun location location' => location'.1 = location.1 ∧
      index.Both index' location.1 location.2 location'.2) locations locations')
    {found : List Candidate} {before after : NameTable}
    (run : (candidates index dialect rawSchema locations).run before = .ok (found, after)) :
    ∃ found', (candidates index' dialect rawSchema locations').run before = .ok (found', after) ∧
      List.Forall₂ (CandidateMet index index' dialect rawSchema) found found' := by
  induction h generalizing found before after with
  | nil =>
    obtain ⟨rfl, rfl⟩ := run_pure_eq_ok.1 run
    exact ⟨[], rfl, .nil⟩
  | @cons location location' rest rest' first _ ih =>
    obtain ⟨place, node⟩ := location
    obtain ⟨place', node'⟩ := location'
    obtain ⟨same, both⟩ := first
    obtain ⟨candidate, _, hc, run⟩ := run_bind_eq_ok.1 run
    obtain ⟨later, _, hl, run⟩ := run_bind_eq_ok.1 run
    obtain ⟨rfl, rfl⟩ := run_pure_eq_ok.1 run
    have here : LocatedMet index index' (fun _ => True) ⟨place, node⟩ ⟨place', node'⟩ :=
      ⟨same, both, trivial⟩
    obtain ⟨candidate', hc', met⟩ := candidateAt_met respelled alike here hc
    obtain ⟨later', hl', others⟩ := ih hl
    refine ⟨candidate'.toList ++ later', ?_, List.rel_append ?_ others⟩
    · exact run_bind_eq_ok.2 ⟨candidate', _, hc', run_bind_eq_ok.2 ⟨later', _, hl', rfl⟩⟩
    · cases met with
      | none => exact .nil
      | some met => exact .cons met .nil

end

end ApiTypes.Api
