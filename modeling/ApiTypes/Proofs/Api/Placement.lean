import ApiTypes.Proofs.Api.Collected
import ApiTypes.Proofs.Api.Errors
import ApiTypes.Proofs.Typing.Lockstep

/-!
# Bare maps of schemas

A bare map of named schemas may be compiled as it is, or be put into an API document, where its
dialect keeps schemas (`Document.placed`). If all its references go on from there, both give the
same (`assemble_placed`): the declarations differ in names and in the places they are made from, and
the warnings and the error in places only.

* `placed_of_selfContained`: references lead to corresponding places;
* `candidates_placed`: the same schemas are named, in the same order;
* `typedDeclarations_lockstep`: their types are made in lockstep.
-/

namespace ApiTypes

/-- The schemas in an API document of a dialect, with nothing else in it. -/
def Api.Dialect.documentOf (dialect : Api.Dialect) (schemas : Json) : Json :=
  match dialect with
  | .swagger2 => .object [("swagger", .string "2.0"), ("definitions", schemas)]
  | .openApi3 =>
    .object [("openapi", .string "3.0.0"), ("components", .object [("schemas", schemas)])]

theorem Api.Dialect.distinct_documentOf (dialect : Api.Dialect) {schemas : Json}
    (h : schemas.DistinctKeys) : (dialect.documentOf schemas).DistinctKeys := by
  cases dialect with
  | swagger2 =>
    simp only [documentOf, Json.DistinctKeys, Json.DistinctFields]
    exact ⟨by simp, trivial, h, trivial⟩
  | openApi3 =>
    simp only [documentOf, Json.DistinctKeys, Json.DistinctFields]
    exact ⟨by simp, trivial, ⟨by simp, h, trivial⟩, trivial⟩

/-- The API document of a dialect in which a bare map of schemas stands. -/
def Document.placed (schemas : Document) (dialect : Api.Dialect) : Document where
  root := dialect.documentOf schemas.root
  distinct := dialect.distinct_documentOf schemas.distinct

/-- The declaration of the place under `above`, with names replaced. -/
def Declaration.moved (above : Pointer) (rename : String → String) (declaration : Declaration) :
    Declaration :=
  { declaration with
    name := rename declaration.name
    pointer := above.under declaration.pointer
    type := declaration.type.rename rename }

namespace Api

open Relator Typing TypeExpr

/-- A bare map of schemas that can as well stand where the dialect keeps schemas: every reference
in it goes on from there, and no entry hides the place. -/
structure SelfContained (dialect : Dialect) (schemas : Document) : Prop where
  object : schemas.root.isObject = true
  free : ∀ key, dialect.schemasPlace.segments.head? = some key → schemas.root.get? key = none
  references : ∀ place reference, ReferenceAt (indexOf schemas dialect true) place reference →
    ∃ rest, rest ≠ [] ∧
      Pointer.ofReference? reference = some ⟨dialect.schemasPlace.segments ++ rest⟩

/-! ## Places and references -/

section
variable {dialect : Dialect} {schemas : Document}

theorem get?_placed (dialect : Dialect) (schemas : Document) (place : Pointer) :
    (indexOf (schemas.placed dialect) dialect false).get? (dialect.schemasPlace.under place) =
      (indexOf schemas dialect true).get? place := by
  unfold Index.get? Pointer.under
  rw [Json.walk?_append]
  cases dialect <;> rfl

theorem get?_hidden (h : SelfContained dialect schemas) (rest : List String) :
    (indexOf schemas dialect true).get? ⟨dialect.schemasPlace.segments ++ rest⟩ = none := by
  obtain ⟨fields, hf⟩ : ∃ fields, schemas.root = .object fields := by
    have object := h.object
    cases hs : schemas.root with
    | object fields => exact ⟨fields, rfl⟩
    | _ =>
      rw [hs] at object
      cases object
  have step : ∀ key, dialect.schemasPlace.segments.head? = some key →
      schemas.root.step? key = none := by
    intro key hk
    have free := h.free key hk
    rw [hf] at free ⊢
    exact free
  unfold Index.get?
  cases dialect with
  | swagger2 =>
    change ((schemas.root.step? "definitions").bind _) = none
    rw [step "definitions" rfl, Option.bind_none]
  | openApi3 =>
    change ((schemas.root.step? "components").bind _) = none
    rw [step "components" rfl, Option.bind_none]

theorem pathAfter?_append (beginning rest : List String) :
    Index.pathAfter? beginning (beginning ++ rest) = some rest := by
  simp [Index.pathAfter?]

/-- In the bare map the root alias takes a reference to where the entry stands, in the API document
the reference leads there itself. -/
theorem placed_of_selfContained (h : SelfContained dialect schemas) :
    Placed dialect.schemasPlace (indexOf schemas dialect true)
      (indexOf (schemas.placed dialect) dialect false) where
  nodes := get?_placed dialect schemas
  references place node reference hn hr := by
    obtain ⟨rest, inside, leads⟩ := h.references place reference
      (referenceAt_iff.2 ⟨node, hn, hr⟩)
    have hidden := Index.target?_of_none (get?_hidden h rest)
    have same : (indexOf (schemas.placed dialect) dialect false).get?
        ⟨dialect.schemasPlace.segments ++ rest⟩ = (indexOf schemas dialect true).get? ⟨rest⟩ :=
      get?_placed dialect schemas ⟨rest⟩
    have bare : (indexOf schemas dialect true).locate? ⟨dialect.schemasPlace.segments ++ rest⟩ =
        (indexOf schemas dialect true).target? ⟨rest⟩ := by
      unfold Index.locate?
      rw [hidden]
      simp only [indexOf, if_true, pathAfter?_append, Option.bind_some]
    have full : (indexOf (schemas.placed dialect) dialect false).locate?
        ⟨dialect.schemasPlace.segments ++ rest⟩ =
          (indexOf (schemas.placed dialect) dialect false).target?
            ⟨dialect.schemasPlace.segments ++ rest⟩ := by
      unfold Index.locate?
      split
      · rename_i found
        rw [found]
      · rename_i missing
        rw [missing]
        rfl
    unfold Index.resolve
    rw [leads, Option.bind_some, Option.bind_some, bare, full]
    cases hg : (indexOf schemas dialect true).get? ⟨rest⟩ with
    | none =>
      rw [Index.target?_of_none hg, Index.target?_of_none (same.trans hg)]
      exact ⟨reference, place, rfl, rfl⟩
    | some target =>
      rw [Index.target?_of_some hg, Index.target?_of_some (same.trans hg)]
      refine ⟨rfl, fun atRoot => inside ?_⟩
      exact congrArg Pointer.segments atRoot

end

/-! ## Locations -/

section
variable (above : Pointer)

/-- The location of the same node under `above`. -/
def locationUnder (location : Pointer × Json) : Pointer × Json :=
  (above.under location.1, location.2)

mutual

theorem locations_under (here : Pointer) : (node : Json) →
    node.locations (above.under here) = (node.locations here).map (locationUnder above)
  | .array items => by
    simp only [Json.locations, List.map_cons]
    rw [itemLocations_under here 0 items]
    rfl
  | .object fields => by
    simp only [Json.locations, List.map_cons]
    rw [fieldLocations_under here fields]
    rfl
  | .null | .bool _ | .number _ | .string _ => rfl

theorem itemLocations_under (here : Pointer) (number : Nat) : (items : List Json) →
    Json.itemLocations (above.under here) number items =
      (Json.itemLocations here number items).map (locationUnder above)
  | [] => rfl
  | item :: rest => by
    simp only [Json.itemLocations, List.map_append]
    rw [← above.under_element, locations_under (here.element number) item,
      itemLocations_under here (number + 1) rest]

theorem fieldLocations_under (here : Pointer) : (fields : List (String × Json)) →
    Json.fieldLocations (above.under here) fields =
      (Json.fieldLocations here fields).map (locationUnder above)
  | [] => rfl
  | (key, value) :: rest => by
    simp only [Json.fieldLocations, List.map_append]
    rw [← above.under_child, locations_under (here.child key) value, fieldLocations_under here rest]

end

end

/-- In front of the schemas are only places that are no candidates. -/
theorem locations_placed (dialect : Dialect) (schemas : Document) :
    ∃ front : List (Pointer × Json),
      (∀ location ∈ front, componentKind? dialect false location.1 = none ∧
        operationAt? location.1 = none) ∧
      (indexOf (schemas.placed dialect) dialect false).locations =
        front ++ (indexOf schemas dialect true).locations.map (locationUnder dialect.schemasPlace) := by
  have below : (indexOf schemas dialect true).locations.map (locationUnder dialect.schemasPlace) =
      schemas.root.locations (dialect.schemasPlace.under .root) :=
    (locations_under dialect.schemasPlace .root schemas.root).symm
  cases dialect with
  | swagger2 =>
    refine ⟨[(.root, Dialect.swagger2.documentOf schemas.root), (⟨["swagger"]⟩, .string "2.0")],
      ?_, ?_⟩
    · simp [componentKind?, operationAt?, Pointer.root]
    · rw [below]
      unfold Index.locations
      simp only [indexOf, Document.placed, Dialect.documentOf, Json.locations, Json.fieldLocations,
        List.append_nil]
      rfl
  | openApi3 =>
    refine ⟨[(.root, Dialect.openApi3.documentOf schemas.root),
      (⟨["openapi"]⟩, .string "3.0.0"), (⟨["components"]⟩, .object [("schemas", schemas.root)])],
      ?_, ?_⟩
    · simp [componentKind?, operationAt?, Pointer.root]
    · rw [below]
      unfold Index.locations
      simp only [indexOf, Document.placed, Dialect.documentOf, Json.locations, Json.fieldLocations,
        List.append_nil]
      rfl

/-! ## Candidates -/

section
variable {index : Index} {dialect : Dialect} {rawSchema : Bool} {place : Pointer} {node : Json}

theorem candidateAt_schema (kind : componentKind? dialect rawSchema place = some .schema)
    (names : NameTable) :
    (candidateAt index dialect rawSchema ⟨place, node⟩).run names =
      .ok (some (.component ⟨place, node⟩ .schema
          (names.assign place (place.last?.getD "")).1),
        (names.assign place (place.last?.getD "")).2) := by
  unfold candidateAt
  simp only [kind]
  rfl

theorem candidateAt_none (kind : componentKind? dialect rawSchema place = none)
    (other : operationAt? place = none) (names : NameTable) :
    (candidateAt index dialect rawSchema ⟨place, node⟩).run names = .ok (none, names) := by
  unfold candidateAt
  simp only [kind, other]
  cases rawSchema <;> rfl

theorem candidates_cons {candidate : Option Candidate} {rest : List (Pointer × Json)}
    {before mid : NameTable}
    (h : (candidateAt index dialect rawSchema ⟨place, node⟩).run before = .ok (candidate, mid)) :
    (candidates index dialect rawSchema ((place, node) :: rest)).run before =
      (do
        let later ← candidates index dialect rawSchema rest
        return candidate.toList ++ later : PlanM (List Candidate)).run mid := by
  simp only [candidates, StateT.run_bind, h]
  rfl

/-- Places that are no candidates are passed over. -/
theorem candidates_skip {front rest : List (Pointer × Json)} (names : NameTable)
    (h : ∀ location ∈ front, componentKind? dialect rawSchema location.1 = none ∧
      operationAt? location.1 = none) :
    (candidates index dialect rawSchema (front ++ rest)).run names =
      (candidates index dialect rawSchema rest).run names := by
  induction front with
  | nil => rfl
  | cons location front ih =>
    obtain ⟨place, node⟩ := location
    obtain ⟨kind, other⟩ := h (place, node) List.mem_cons_self
    rw [List.cons_append, candidates_cons (candidateAt_none kind other names)]
    simp only [Option.toList_none, List.nil_append, bind_pure]
    exact ih fun location hm => h location (List.mem_cons_of_mem _ hm)

end

/-- The same schema as a candidate in both documents. -/
def CandidateMoved (above : Pointer) (bare : Index) (R : String → String → Prop)
    (candidate candidate' : Candidate) : Prop :=
  ∃ place node name name', candidate = .component ⟨place, node⟩ .schema name ∧
    candidate' = .component ⟨above.under place, node⟩ .schema name' ∧
    bare.get? place = some node ∧ R name name'

theorem CandidateMoved.mono {above : Pointer} {bare : Index} {R S : String → String → Prop}
    (more : Subrelation R S) {candidate candidate' : Candidate}
    (h : CandidateMoved above bare R candidate candidate') :
    CandidateMoved above bare S candidate candidate' := by
  obtain ⟨place, node, name, name', hc, hc', stands, related⟩ := h
  exact ⟨place, node, name, name', hc, hc', stands, more related⟩

/-- The entries of the bare map stand where the dialect keeps schemas. -/
theorem componentKind?_placed (dialect : Dialect) (place : Pointer) :
    componentKind? dialect false (dialect.schemasPlace.under place) =
      componentKind? dialect true place := by
  obtain ⟨segments⟩ := place
  match segments with
  | [] => cases dialect <;> rfl
  | [entry] => cases dialect <;> rfl
  | first :: second :: rest =>
    cases dialect <;> simp [componentKind?, Pointer.depth, Pointer.under, Dialect.schemasPlace]

theorem operationAt?_placed (dialect : Dialect) (place : Pointer) :
    operationAt? (dialect.schemasPlace.under place) = none := by
  cases dialect <;> simp [operationAt?, Pointer.under, Dialect.schemasPlace]

theorem candidates_placed {dialect : Dialect} (bareIndex fullIndex : Index)
    {locations : List (Pointer × Json)}
    (stand : ∀ location ∈ locations, bareIndex.get? location.1 = some location.2)
    {bare full : NameTable} (tables : TablesParallel dialect.schemasPlace bare full) :
    ∃ cs cs' bare' full',
      (candidates bareIndex dialect true locations).run bare = .ok (cs, bare') ∧
      (candidates fullIndex dialect false
        (locations.map (locationUnder dialect.schemasPlace))).run full = .ok (cs', full') ∧
      TablesParallel dialect.schemasPlace bare' full' ∧
      Subrelation (Renames dialect.schemasPlace bare full)
        (Renames dialect.schemasPlace bare' full') ∧
      List.Forall₂ (CandidateMoved dialect.schemasPlace bareIndex
        (Renames dialect.schemasPlace bare' full')) cs cs' := by
  induction locations generalizing bare full with
  | nil => exact ⟨[], [], bare, full, rfl, rfl, tables, id, .nil⟩
  | cons location rest ih =>
    obtain ⟨place, node⟩ := location
    have later := fun location hm => stand location (List.mem_cons_of_mem _ hm)
    have same := componentKind?_placed dialect place
    rw [List.map_cons, locationUnder]
    by_cases entry : place.depth = 1
    · have kind : componentKind? dialect true place = some .schema := by
        simp [componentKind?, entry]
      have inside : place ≠ .root := by
        rintro rfl
        cases entry
      have base := dialect.schemasPlace.last?_under inside
      obtain ⟨assigned, kept, given⟩ := tables.assign place (place.last?.getD "")
      obtain ⟨cs, cs', bare', full', hb, hf, tables', kept', moved⟩ := ih later assigned
      rw [candidates_cons (candidateAt_schema kind bare),
        candidates_cons (candidateAt_schema (same.trans kind) full), base]
      refine ⟨_, _, bare', full', run_bind_eq_ok.2 ⟨cs, bare', hb, rfl⟩,
        run_bind_eq_ok.2 ⟨cs', full', hf, rfl⟩, tables', fun h => kept' (kept h), ?_⟩
      have here := stand (place, node) List.mem_cons_self
      exact .cons ⟨place, node, _, _, rfl, rfl, here, kept' given⟩ moved
    · have kind : componentKind? dialect true place = none := by
        simp [componentKind?, entry]
      obtain ⟨cs, cs', bare', full', hb, hf, tables', kept', moved⟩ := ih later tables
      have bare_none : (candidateAt bareIndex dialect true ⟨place, node⟩).run bare =
          .ok (none, bare) := by
        unfold candidateAt
        simp only [kind]
        rfl
      have full_none : (candidateAt fullIndex dialect false
          ⟨dialect.schemasPlace.under place, node⟩).run full = .ok (none, full) :=
        candidateAt_none (same.trans kind) (operationAt?_placed dialect place) full
      rw [candidates_cons bare_none, candidates_cons full_none]
      exact ⟨cs, cs', bare', full', run_bind_eq_ok.2 ⟨cs, bare', hb, rfl⟩,
        run_bind_eq_ok.2 ⟨cs', full', hf, rfl⟩, tables', kept', moved⟩

/-! ## Declarations -/

/-- The declaration of the same schema in both documents. -/
structure DeclarationMoved (above : Pointer) (R : String → String → Prop)
    (declaration declaration' : Declaration) : Prop where
  name : R declaration.name declaration'.name
  pointer : declaration'.pointer = above.under declaration.pointer
  kind : declaration'.kind = declaration.kind
  type : Renamed R declaration.type declaration'.type
  doc : declaration'.doc = declaration.doc

section
variable {above : Pointer} {bareIndex fullIndex : Index}
  (placed : Placed above bareIndex fullIndex) {dialect : Dialect}
include placed

theorem candidateDeclarations_lockstep {bare full : State} (parallel : Parallel above bare full)
    {candidate candidate' : Candidate}
    (h : CandidateMoved above bareIndex (Renames above bare.names full.names)
      candidate candidate') :
    LockstepFrom above bare full (candidateDeclarations bareIndex dialect candidate)
      (candidateDeclarations fullIndex dialect candidate')
      fun R => List.Forall₂ (DeclarationMoved above R) := by
  obtain ⟨place, node, name, name', rfl, rfl, stands, related⟩ := h
  apply (typeOfRoot_lockstep placed node place stands bare full parallel).bind
  intro type type' bare' full' parallel' kept _
  apply LockstepFrom.pure parallel'
  intro R _ more renamed
  exact .cons ⟨more (kept related), rfl, rfl, renamed, rfl⟩ .nil

theorem allDeclarations_lockstep {cs cs' : List Candidate} {bare full : State}
    (parallel : Parallel above bare full)
    (h : List.Forall₂ (CandidateMoved above bareIndex (Renames above bare.names full.names)) cs cs') :
    LockstepFrom above bare full (allDeclarations bareIndex dialect cs)
      (allDeclarations fullIndex dialect cs') fun R => List.Forall₂ (DeclarationMoved above R) := by
  induction cs generalizing cs' bare full with
  | nil =>
    cases h
    exact .pure parallel fun _ _ _ => .nil
  | cons candidate rest ih =>
    cases h with
    | cons first others =>
      apply (candidateDeclarations_lockstep placed parallel first).bind
      intro ds ds' bare' full' parallel' kept _
      apply (ih parallel' (others.imp fun _ _ moved => moved.mono kept)).bind
      intro later later' bare'' full'' parallel'' _ _
      apply LockstepFrom.pure parallel''
      intro R _ _ hl hd
      exact List.rel_append hd hl

/-- The next promoted places correspond. -/
theorem nextPromoted?_moved {R : String → String → Prop} (declared : List Pointer)
    {promoted promoted' : List (Pointer × String)}
    (h : List.Forall₂ (Moved above R) promoted promoted') :
    (nextPromoted? bareIndex declared promoted = none ∧
      nextPromoted? fullIndex (declared.map above.under) promoted' = none) ∨
    ∃ target target' name name',
      nextPromoted? bareIndex declared promoted = some (target, name) ∧
      nextPromoted? fullIndex (declared.map above.under) promoted' = some (target', name') ∧
      target'.pointer = above.under target.pointer ∧ R name name' := by
  induction h with
  | nil => exact .inl ⟨rfl, rfl⟩
  | @cons entry entry' rest rest' first _ ih =>
    obtain ⟨place, name⟩ := entry
    obtain ⟨place', name'⟩ := entry'
    obtain ⟨rfl, related⟩ : place' = above.under place ∧ R name name' := first
    have again : (declared.map above.under).contains (above.under place) =
        declared.contains place := by
      rw [Bool.eq_iff_iff]
      simp only [List.contains_eq_mem, decide_eq_true_eq]
      exact List.mem_map_of_injective above.under_injective
    unfold nextPromoted? at ih ⊢
    cases known : declared.contains place with
    | true =>
      simp only [List.find?_cons, again, known, Bool.not_true]
      exact ih
    | false =>
      simp only [List.find?_cons, again, known, Bool.not_false, Option.bind_some]
      cases hn : bareIndex.get? place with
      | none =>
        rw [Index.target?_of_none hn, Index.target?_of_none ((placed.nodes place).trans hn)]
        exact .inl ⟨rfl, rfl⟩
      | some node =>
        rw [Index.target?_of_some hn, Index.target?_of_some ((placed.nodes place).trans hn)]
        exact .inr ⟨_, _, name, name', rfl, rfl, rfl, related⟩

theorem promotedDeclarations_lockstep (declared : List Pointer) :
    Lockstep above (promotedDeclarations bareIndex declared)
      (promotedDeclarations fullIndex (declared.map above.under))
      fun R => List.Forall₂ (DeclarationMoved above R) := by
  intro bare full parallel
  rcases nextPromoted?_moved placed declared parallel.promoted with
    ⟨none, none'⟩ | ⟨target, target', name, name', next, next', same, related⟩
  · unfold LockstepFrom
    rw [promotedDeclarations_of_none none, promotedDeclarations_of_none none']
    exact ⟨parallel, id, fun _ _ _ => .nil⟩
  · have smaller := Index.unvisited_lt target.found (not_mem_of_nextPromoted next)
    have later := promotedDeclarations_lockstep (declared ++ [target.pointer])
    rw [List.map_append, List.map_singleton, ← same] at later
    have typed : Lockstep above (typeOfRoot bareIndex target.node target.pointer)
        (typeOfRoot fullIndex target'.node target'.pointer) Renamed := by
      rw [same, placed.node same]
      exact typeOfRoot_lockstep placed target.node target.pointer target.found
    have both : LockstepFrom above bare full
        (do
          let type ← typeOfRoot bareIndex target.node target.pointer
          let later ← promotedDeclarations bareIndex (declared ++ [target.pointer])
          return ⟨name, target.pointer, .promoted, type, Schema.doc? target.node⟩ :: later)
        (do
          let type ← typeOfRoot fullIndex target'.node target'.pointer
          let later ← promotedDeclarations fullIndex (declared.map above.under ++ [target'.pointer])
          return ⟨name', target'.pointer, .promoted, type, Schema.doc? target'.node⟩ :: later)
        fun R => List.Forall₂ (DeclarationMoved above R) := by
      apply (typed bare full parallel).bind
      intro type type' bare' full' parallel' kept _
      apply (later bare' full' parallel').bind
      intro ds ds' bare'' full'' parallel'' kept' _
      apply LockstepFrom.pure parallel''
      intro R _ more hl ht
      have doc : Schema.doc? target'.node = Schema.doc? target.node := by rw [placed.node same]
      exact .cons ⟨more (kept' (kept related)), same, rfl, ht, doc⟩ hl
    unfold LockstepFrom at both ⊢
    rw [promotedDeclarations_of_some next, promotedDeclarations_of_some next']
    exact both
termination_by bareIndex.unvisited declared

theorem typedDeclarations_lockstep {cs cs' : List Candidate} {bare full : State}
    (parallel : Parallel above bare full)
    (h : List.Forall₂ (CandidateMoved above bareIndex (Renames above bare.names full.names)) cs cs') :
    LockstepFrom above bare full (typedDeclarations bareIndex dialect cs)
      (typedDeclarations fullIndex dialect cs')
      fun R => List.Forall₂ (DeclarationMoved above R) := by
  apply (allDeclarations_lockstep placed parallel h).bind
  intro ds ds' bare' full' parallel' _ _
  have promoted := promotedDeclarations_lockstep placed [] bare' full' parallel'
  apply promoted.bind
  intro later later' bare'' full'' parallel'' _ _
  apply LockstepFrom.pure parallel''
  intro R _ _ hl hd
  exact List.rel_append hd hl

end

/-! ## Assembly -/

/-- The name in the full document of what has a name in the bare one. -/
def newName (above : Pointer) (bare full : NameTable) (name : String) : String :=
  ((bare.entries.find? fun entry => entry.2 == name).bind fun entry =>
    full.get? (above.under entry.1)).getD name

theorem newName_eq {above : Pointer} {bare full : NameTable} (hv : bare.Valid)
    {name name' : String} (h : Renames above bare full name name') :
    newName above bare full name = name' := by
  obtain ⟨place, hn, hn'⟩ := h
  have first : bare.entries.find? (fun entry => entry.2 == name) = some (place, name) := by
    have some : (bare.entries.find? (fun entry => entry.2 == name)).isSome := by
      rw [List.find?_isSome]
      exact ⟨(place, name), NameTable.mem_of_get? hn, by simp⟩
    obtain ⟨entry, he⟩ := Option.isSome_iff_exists.1 some
    obtain ⟨p, n⟩ := entry
    have same : n = name := by simpa using List.find?_some he
    subst same
    rw [he, hv.place_unique (hv.get?_of_mem (List.mem_of_find?_eq_some he)) hn]
  rw [newName, first, Option.bind_some, hn', Option.getD_some]

theorem DeclarationMoved.eq_moved {above : Pointer} {R : String → String → Prop}
    {f : String → String} (graph : ∀ name name', R name name' → f name = name')
    {declaration declaration' : Declaration} (h : DeclarationMoved above R declaration declaration') :
    declaration' = declaration.moved above f := by
  cases declaration'
  simp only [Declaration.moved, Declaration.mk.injEq]
  exact ⟨(graph _ _ h.name).symm, h.pointer, h.kind, h.type.eq_rename graph, h.doc⟩

/-- What assembly makes of the two documents: declarations that differ by one renaming, by which no
two names become one, and warnings, up to places; or the same error. -/
def Agree (above : Pointer) : Except CompileError Assembly → Except CompileError Assembly → Prop
  | .ok bare, .ok full => ∃ rename : String → String,
    (∀ a ∈ bare.declarations, ∀ b ∈ bare.declarations, rename a.name = rename b.name →
      a.name = b.name) ∧
    full.declarations = bare.declarations.map (Declaration.moved above rename) ++ [wrapper []] ∧
    full.warnings = bare.warnings.map (Warning.under above)
  | .error e, .error e' => FailAlike above e e'
  | _, _ => False

theorem operationsOf_moved {above : Pointer} {bare : Index} {R : String → String → Prop}
    {cs cs' : List Candidate} (h : List.Forall₂ (CandidateMoved above bare R) cs cs') :
    operationsOf cs' = [] := by
  induction h with
  | nil => rfl
  | cons first _ ih =>
    obtain ⟨place, node, name, name', -, rfl, -, -⟩ := first
    exact ih

/-- A bare map of schemas whose references all go on from where the dialect keeps schemas gives the
same declarations and warnings as the API document that holds the map there, but for places, names
and the wrapper, or fails on the same reference. -/
theorem assemble_placed {dialect : Dialect} {schemas : Document}
    (h : SelfContained dialect schemas) :
    Agree dialect.schemasPlace (assemble (indexOf schemas dialect true) dialect true)
      (assemble (indexOf (schemas.placed dialect) dialect false) dialect false) := by
  have placed := placed_of_selfContained h
  obtain ⟨front, other, locations⟩ := locations_placed dialect schemas
  have stand : ∀ location ∈ (indexOf schemas dialect true).locations,
      (indexOf schemas dialect true).get? location.1 = some location.2 :=
    fun _ hm => Index.get?_of_mem_locations hm
  obtain ⟨cs, cs', names, names', hb, hf, tables, -, moved⟩ :=
    candidates_placed (indexOf schemas dialect true)
      (indexOf (schemas.placed dialect) dialect false) stand tablesParallel_empty
  rw [← candidates_skip _ other, ← locations] at hf
  rcases (typedDeclarations_lockstep placed (parallel_start tables) moved).cases with
    ⟨ds, ds', bare, full, ht, ht', parallel, -, related⟩ | ⟨e, e', bare, full, ht, ht', alike⟩
  · rw [assemble_of_typed hb ht, assemble_of_typed hf ht']
    have unique := renames_unique parallel.names
    have graph : ∀ name name', Renames dialect.schemasPlace bare.names full.names name name' →
        newName dialect.schemasPlace bare.names full.names name = name' :=
      fun _ _ => newName_eq parallel.names.bareValid
    have ds_moved := related _ unique id
    refine ⟨newName dialect.schemasPlace bare.names full.names, ?injective, ?declarations,
      parallel.warnings⟩
    case injective =>
      intro a ha b hb same
      obtain ⟨a', -, moved_a⟩ := exists_right_of_forall₂ ds_moved ha
      obtain ⟨b', -, moved_b⟩ := exists_right_of_forall₂ ds_moved hb
      rw [graph _ _ moved_a.name, graph _ _ moved_b.name] at same
      exact unique.1 moved_a.name (same ▸ moved_b.name)
    case declarations =>
      have declarations : ds' = ds.map (Declaration.moved dialect.schemasPlace
          (newName dialect.schemasPlace bare.names full.names)) := by
        clear ht ht' related
        induction ds_moved with
        | nil => rfl
        | cons first _ ih => rw [List.map_cons, ← ih, ← first.eq_moved graph]
      simp only [withWrapper, if_true, Bool.false_eq_true, if_false, operationsOf_moved moved]
      rw [declarations]
  · rw [assemble_of_failed hb ht, assemble_of_failed hf ht']
    exact alike

/-- A schema that refers to itself, and twice to a part of it with the base name of an entry. -/
def collidingSchemas : Document :=
  .ofJson (.object [
    ("Node", .object [("properties", .object [
      ("next", .object [("$ref", .string "#/components/schemas/Node")]),
      ("label", .object [("properties", .object [("text", .object [("type", .string "string")])])]),
      ("first", .object [("$ref", .string "#/components/schemas/Node/properties/label")]),
      ("second", .object [("$ref", .string "#/components/schemas/Node/properties/label")])])]),
    ("Label", .object [("not", .object [])])])

theorem selfContained_collidingSchemas : SelfContained .openApi3 collidingSchemas where
  object := by decide
  free key hk := by
    cases hk
    decide
  references place reference hr := by
    obtain ⟨node, hn, hr⟩ := referenceAt_iff.1 hr
    have all : ∀ location ∈ (indexOf collidingSchemas .openApi3 true).locations,
        Schema.reference? location.2 = none ∨
        Schema.reference? location.2 = some "#/components/schemas/Node" ∨
        Schema.reference? location.2 = some "#/components/schemas/Node/properties/label" := by
      decide +kernel
    have found := all _ (Index.mem_locations hn)
    rw [hr] at found
    rcases found with none | entry | part
    · cases none
    · cases entry
      exact ⟨["Node"], by decide, by decide +kernel⟩
    · cases part
      exact ⟨["Node", "properties", "label"], by decide, by decide +kernel⟩

theorem assemble_placed_collidingSchemas :
    SelfContained .openApi3 collidingSchemas ∧
    (assemble (indexOf collidingSchemas .openApi3 true) .openApi3 true).isOk = true ∧
    Agree Dialect.openApi3.schemasPlace
      (assemble (indexOf collidingSchemas .openApi3 true) .openApi3 true)
      (assemble (indexOf (collidingSchemas.placed .openApi3) .openApi3 false) .openApi3 false) := by
  refine ⟨selfContained_collidingSchemas, ?_, assemble_placed selfContained_collidingSchemas⟩
  decide +kernel

end Api

end ApiTypes
