import ApiTypes.Proofs.Api.Assembly
import ApiTypes.Proofs.Dangling
import ApiTypes.Proofs.Typing.Marks

/-!
# Closure

Every name that a declared type refers to is the name of one declaration.

* `refsNamed_preserved`: typing refers only to names in the table of names;
* `Assembled.refs_declared`: so does every declared type, and the wrapper refers to declarations of its
  operations (`mark_of_occurs_wrapper`);
* `assemble_ends`: so the closure check finds nothing, and assembly fails on broken references only;
* `assemble_runs`: what comes out of assembly is what was `Assembled`, with the wrapper;
* `assemble_closed`: no two declarations have one name, and no reference dangles.
-/

namespace ApiTypes.Api

open Typing TypeExpr

/-! ## References to names given -/

/-- All references in the type are to names given. -/
def RefsNamed (state : State) (type : TypeExpr) : Prop :=
  ∀ name, Occurs (.ref name) type → name ∈ state.names.taken

theorem RefsNamed.mono {a b : State} (type : TypeExpr) (grows : a.Grows b) (h : RefsNamed a type) :
    RefsNamed b type :=
  fun name hn => (grows.names.map (·.2)).subset (h name hn)

theorem refsNamed_preserved (index : Index) (state : State) :
    Preserved index state (RefsNamed state) := by
  have marks : RefsNamed state = Marks fun t => ∀ name, t = .ref name → name ∈ state.names.taken := by
    funext type
    apply propext
    constructor
    · rintro h t - inside name rfl
      exact h name inside
    · intro h name inside
      exact h _ (.ref name) inside name rfl
  rw [marks]
  apply marks_preserved
  · rintro place given found name same
    cases same
    exact List.mem_map_of_mem (NameTable.mem_of_get? found)
  · rintro note - name same
    cases same

/-! ## Marks of the wrapper -/

section
variable {t : TypeExpr} (mark : IsMark t)
include mark

theorem mark_of_occurs_operationMembers {operation : Operation}
    (h : Occurs t (.object (operationMembers operation))) :
    ∃ name, t = .ref name ∧ name ∈ operation.declared.map (·.2) := by
  obtain ⟨_, hm, _, ht, inside⟩ := mark_of_occurs_object mark h
  simp only [Operation.declared, List.map_append, List.map_map, List.mem_append, List.mem_map]
  rcases List.mem_append.1 hm with hm | hm
  · rcases List.mem_append.1 hm with hm | hm
    · obtain ⟨named, hn, rfl⟩ := List.mem_map.1 hm
      rw [List.mem_singleton.1 ht] at inside
      cases inside
      exact ⟨_, rfl, .inl (.inl ⟨named, hn, rfl⟩)⟩
    · obtain ⟨pair, hn, rfl⟩ := List.mem_map.1 hm
      rw [List.mem_singleton.1 ht] at inside
      cases inside
      exact ⟨_, rfl, .inl (.inr ⟨pair, hn, rfl⟩)⟩
  · rw [List.mem_singleton.1 hm] at ht
    rw [List.mem_singleton.1 ht] at inside
    obtain ⟨_, hm, _, ht, inside⟩ := mark_of_occurs_object mark inside
    obtain ⟨response, hr, rfl⟩ := List.mem_map.1 hm
    rw [List.mem_singleton.1 ht] at inside
    cases inside
    exact ⟨_, rfl, .inr ⟨response, hr, rfl⟩⟩

/-- The wrapper is marked with nothing but the names that its operations are given. -/
theorem mark_of_occurs_wrapper {operations : List Operation}
    (h : Occurs t (wrapper operations).type) :
    ∃ name, t = .ref name ∧ ∃ operation ∈ operations, name ∈ operation.declared.map (·.2) := by
  obtain ⟨_, hm, _, ht, inside⟩ := mark_of_occurs_object mark h
  obtain ⟨path, -, rfl⟩ := List.mem_map.1 hm
  rw [List.mem_singleton.1 ht] at inside
  obtain ⟨_, hm, _, ht, inside⟩ := mark_of_occurs_object mark inside
  obtain ⟨operation, ho, rfl⟩ := List.mem_map.1 hm
  rw [List.mem_singleton.1 ht] at inside
  obtain ⟨name, same, declared⟩ := mark_of_occurs_operationMembers mark inside
  exact ⟨name, same, operation, (List.mem_filter.1 ho).1, declared⟩

end

/-! ## Closure of an assembly -/

theorem mem_operationsOf {candidates : List Candidate} {operation : Operation}
    (h : operation ∈ operationsOf candidates) : .operation operation ∈ candidates := by
  obtain ⟨candidate, hm, hc⟩ := List.mem_filterMap.1 h
  cases candidate with
  | component here kind name => cases hc
  | operation found =>
    cases hc
    exact hm

section
variable {index : Index} {dialect : Dialect} {rawSchema : Bool} {candidates : List Candidate}
  {state : State} {declared promoted : List Declaration}

/-- All declarations of an assembly. -/
def withWrapper (rawSchema : Bool) (candidates : List Candidate) (declarations : List Declaration) :
    List Declaration :=
  if rawSchema then declarations else declarations ++ [wrapper (operationsOf candidates)]

theorem Assembled.taken_eq
    (h : Assembled index dialect rawSchema candidates state declared promoted) :
    (declared ++ promoted).map (·.name) = state.names.taken := by
  have := congrArg (List.map (·.2)) h.names_eq
  rwa [List.map_map] at this

theorem Assembled.names_nodup
    (h : Assembled index dialect rawSchema candidates state declared promoted) :
    ((withWrapper rawSchema candidates (declared ++ promoted)).map (·.name)).Nodup := by
  have distinct := h.valid.names.names
  unfold withWrapper
  split
  · rwa [h.taken_eq]
  · rw [List.map_append, h.taken_eq]
    refine List.nodup_append.2 ⟨distinct, by simp, ?_⟩
    intro name hm other ho
    have ho : other = wrapperName := by simpa [wrapper] using ho
    rw [ho]
    exact (h.valid.names.shaped name hm).ne_of_lower rfl rfl

theorem Assembled.refs_declared
    (h : Assembled index dialect rawSchema candidates state declared promoted) :
    ∀ declaration ∈ withWrapper rawSchema candidates (declared ++ promoted), ∀ name,
      Occurs (.ref name) declaration.type →
        name ∈ (withWrapper rawSchema candidates (declared ++ promoted)).map (·.name) := by
  have named := h.preserved (fun _ _ => RefsNamed.mono) fun state _ => refsNamed_preserved index state
  have taken : ∀ name ∈ state.names.taken,
      name ∈ (withWrapper rawSchema candidates (declared ++ promoted)).map (·.name) := by
    intro name hn
    rw [← h.taken_eq] at hn
    unfold withWrapper
    split
    · exact hn
    · exact List.map_append ▸ List.mem_append_left _ hn
  intro declaration hm name hn
  refine taken name ?_
  unfold withWrapper at hm
  split at hm
  · exact (named declaration hm).1 name hn
  · rcases List.mem_append.1 hm with hm | hm
    · exact (named declaration hm).1 name hn
    · rw [List.mem_singleton.1 hm] at hn
      obtain ⟨_, same, operation, ho, hdeclared⟩ := mark_of_occurs_wrapper (.ref name) hn
      cases same
      obtain ⟨entry, he, rfl⟩ := List.mem_map.1 hdeclared
      refine List.mem_map_of_mem (f := Prod.snd) ?_
      rw [h.valid.entries]
      exact List.mem_append_left _ (List.mem_flatMap.2 ⟨_, mem_operationsOf ho, he⟩)

end

theorem verifyClosure_of_declared {declarations : List Declaration}
    (h : ∀ declaration ∈ declarations, ∀ name, Occurs (.ref name) declaration.type →
      name ∈ declarations.map (·.name)) :
    Declaration.verifyClosure declarations = .ok () :=
  Declaration.verifyClosure_eq_ok_iff.2 h

section
variable {index : Index} {dialect : Dialect} {rawSchema : Bool} {found : List Candidate}
  {names : NameTable} {state : State}

theorem assemble_of_uncollected {error : CompileError}
    (uncollected : (candidates index dialect rawSchema index.locations).run {} = .error error) :
    assemble index dialect rawSchema = .error error := by
  unfold assemble
  rw [uncollected]
  rfl

theorem assemble_of_failed {error : CompileError}
    (collected : (candidates index dialect rawSchema index.locations).run {} = .ok (found, names))
    (failed : (typedDeclarations index dialect found).run.run { names } = (.error error, state)) :
    assemble index dialect rawSchema = .error error := by
  unfold assemble
  simp only [collected, failed, bind, Except.bind]

/-- When the declarations are made, assembly comes to its end. -/
theorem assemble_of_typed {declarations : List Declaration}
    (collected : (candidates index dialect rawSchema index.locations).run {} = .ok (found, names))
    (typed : (typedDeclarations index dialect found).run.run { names } =
      (.ok declarations, state)) :
    assemble index dialect rawSchema =
      .ok ⟨withWrapper rawSchema found declarations, state.warnings⟩ := by
  have made := typedDeclarations_assembled collected
  simp only [typed] at made
  obtain ⟨declared, promoted, rfl, assembled⟩ := made
  have closed := verifyClosure_of_declared assembled.refs_declared
  unfold assemble
  unfold withWrapper at closed ⊢
  simp only [collected, typed, bind, Except.bind, closed]
  rfl

/-- Assembly fails on a broken reference, or it comes to its end. -/
theorem assemble_ends (index : Index) (dialect : Dialect) (rawSchema : Bool) :
    (∃ error, assemble index dialect rawSchema = .error error ∧ index.Broken error) ∨
    ∃ found names declared promoted state,
      (candidates index dialect rawSchema index.locations).run {} = .ok (found, names) ∧
      (typedDeclarations index dialect found).run.run { names } =
        (.ok (declared ++ promoted), state) ∧
      Assembled index dialect rawSchema found state declared promoted ∧
      assemble index dialect rawSchema =
        .ok ⟨withWrapper rawSchema found (declared ++ promoted), state.warnings⟩ := by
  cases collected : (candidates index dialect rawSchema index.locations).run {} with
  | error error =>
    have broken := candidates_planned.of_error collected
    exact .inl ⟨error, assemble_of_uncollected collected, broken⟩
  | ok result =>
    obtain ⟨found, names⟩ := result
    have made := typedDeclarations_assembled collected
    rcases typed : (typedDeclarations index dialect found).run.run { names } with
      ⟨error | declarations, state⟩
    · simp only [typed] at made
      exact .inl ⟨error, assemble_of_failed collected typed, made⟩
    · simp only [typed] at made
      obtain ⟨declared, promoted, rfl, assembled⟩ := made
      exact .inr ⟨found, names, declared, promoted, state, rfl, typed, assembled,
        assemble_of_typed collected typed⟩

/-- What an assembly is made of: the candidates of the document, and the declarations made of them
and of the places promoted meanwhile. -/
theorem assemble_runs {assembly : Assembly} (h : assemble index dialect rawSchema = .ok assembly) :
    ∃ found names declared promoted state,
      (candidates index dialect rawSchema index.locations).run {} = .ok (found, names) ∧
      (typedDeclarations index dialect found).run.run { names } =
        (.ok (declared ++ promoted), state) ∧
      Assembled index dialect rawSchema found state declared promoted ∧
      assembly = ⟨withWrapper rawSchema found (declared ++ promoted), state.warnings⟩ := by
  rcases assemble_ends index dialect rawSchema with
    ⟨error, he, -⟩ | ⟨found, names, declared, promoted, state, collected, typed, assembled, he⟩
  · rw [he] at h
    cases h
  · rw [he] at h
    cases h
    exact ⟨found, names, declared, promoted, state, collected, typed, assembled, rfl⟩

end

/-- Of any document, raw or not: the declarations have distinct names, and every reference that occurs
in one of their types names exactly one of them. The closure check never finds one that dangles. -/
theorem assemble_closed (index : Index) (dialect : Dialect) (rawSchema : Bool) :
    match assemble index dialect rawSchema with
    | .ok assembly =>
      (assembly.declarations.map (·.name)).Nodup ∧
      ∀ declaration ∈ assembly.declarations, ∀ name, Occurs (.ref name) declaration.type →
        (assembly.declarations.map (·.name)).count name = 1
    | .error error => ∀ name place, error ≠ .danglingReference name place := by
  rcases assemble_ends index dialect rawSchema with
    ⟨error, he, reference, place, node, rfl, -⟩ | ⟨found, names, declared, promoted, state, -, -, h, he⟩
  · rw [he]
    intro name place h
    cases h
  · rw [he]
    have distinct := h.names_nodup
    refine ⟨distinct, fun declaration hm name hn => ?_⟩
    rw [distinct.count, if_pos (h.refs_declared declaration hm name hn)]

end ApiTypes.Api
