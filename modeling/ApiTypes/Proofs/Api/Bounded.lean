import ApiTypes.Proofs.Api.Assembly
import ApiTypes.Proofs.Typing.Bounded

/-!
# Assembly within bounds

Assembly goes through references in three ways: it types schemas, follows chains of parts, and
declares promoted places until there are none left. Each is done here within a bound, and raises an
alarm when that is used up or a place turns up that should not.

* `chainWithin_eq`: a chain of references ends after as many parts as there are places, and one;
* `promotedWithin_eq`: each round declares another place, so there are no more rounds than places;
* `assemble_terminates`: no alarm is ever raised, whatever the alarm is, so assembly ends on every
  document.
-/

namespace ApiTypes.Api

open Typing

/-! ## Chains -/

section
variable {α : Type} (index : Index) (stop? : Pointer → Option α)

/-- Follows the references that begin at `start`, to no more than `bound` parts. -/
def chainWithin (start : Pointer) (alarm : CompileError) :
    (bound : Nat) → List Pointer → Located → Except CompileError (α ⊕ Located)
  | 0, _, _ => .error alarm
  | bound + 1, seen, here =>
    if index.IsPath start (seen ++ [here.place]) then
      match Schema.reference? here.node with
      | none => .ok (.inr here)
      | some reference =>
        match index.resolve reference here.place with
        | .error error => .error error
        | .ok target =>
          match stop? target.pointer with
          | some answer => .ok (.inl answer)
          | none =>
            match target.isCycle (seen ++ [here.place]) with
            | true => .error (.unresolvedReference reference here.place)
            | false =>
              chainWithin start alarm bound (seen ++ [here.place]) ⟨target.pointer, target.node⟩
    else .error alarm

end

section
variable {α : Type} {index : Index} {stop? : Pointer → Option α} {start : Pointer}
  {alarm : CompileError}

/-- Every part that is a reference is another place, so there are places left to pass. -/
theorem chainWithin_eq_followChain (bound : Nat) (seen : List Pointer) (here : Located)
    (h : index.IsPath start (seen ++ [here.place])) (enough : index.size < bound + seen.length) :
    chainWithin index stop? start alarm bound seen here = followChain index stop? seen here := by
  induction bound generalizing seen here with
  | zero =>
    have := h.length_le
    rw [List.length_append, List.length_singleton] at this
    omega
  | succ bound ih =>
    rw [chainWithin, if_pos h, followChain]
    cases Schema.reference? here.node with
    | none => rfl
    | some reference =>
      dsimp only
      cases index.resolve reference here.place with
      | error error => rfl
      | ok target =>
        dsimp only
        cases stop? target.pointer with
        | some answer => rfl
        | none =>
          dsimp only
          split
          · rename_i cycle
            split
            · rfl
            · rename_i other
              rw [cycle] at other
              cases other
          · rename_i fresh
            split
            · rename_i other
              rw [fresh] at other
              cases other
            · have outside : target.pointer ∉ seen ++ [here.place] := by
                simpa [Index.Target.isCycle] using fresh
              apply ih _ _ (h.extend target outside)
              rw [List.length_append, List.length_singleton]
              omega

theorem chainWithin_eq (here : Located) :
    chainWithin index stop? here.place alarm (index.size + 1) [] here =
      followChain index stop? [] here := by
  apply chainWithin_eq_followChain _ _ _ (index.isPath_start here.place)
  simp

end

/-! ## Promoted places -/

section
variable (index : Index) (dialect : Dialect) (alarm : CompileError)

/-- Declares the promoted places behind those that are `done`, in no more than `rounds` rounds and
each within the bound `deep`. Each has to be a place of the document that is not done yet. -/
def promotedWithin (deep : Nat) : (rounds : Nat) → List Pointer → TypingM (List Declaration)
  | 0, done => do
    let state ← get
    if state.promoted.length ≤ done.length then return [] else throw alarm
  | rounds + 1, done => do
    let state ← get
    match state.promoted[done.length]? with
    | none => return []
    | some (place, name) =>
      match index.target? place with
      | none => throw alarm
      | some target =>
        if done.contains target.pointer then throw alarm
        else
          let type ← typeWithin index target.pointer alarm deep [target.pointer] target.node
            target.pointer
          let later ← promotedWithin deep rounds (done ++ [target.pointer])
          return ⟨name, target.pointer, .promoted, type, Schema.doc? target.node⟩ :: later

/-- Everything but the wrapper, with the promoted places declared within bounds. -/
def typedWithin (deep rounds : Nat) (candidates : List Candidate) :
    TypingM (List Declaration) := do
  let declared ← allDeclarations index dialect candidates
  let promoted ← promotedWithin index alarm deep rounds []
  return declared ++ promoted

/-- All declarations of a document, with the promoted places declared within bounds. -/
def assembleWithin (rawSchema : Bool) (deep rounds : Nat) : Except CompileError Assembly := do
  let (candidates, names) ← (candidates index dialect rawSchema index.locations).run {}
  let (result, state) :=
    (typedWithin index dialect alarm deep rounds candidates).run.run { names }
  let typed ← result
  let declarations :=
    if rawSchema then typed else typed ++ [wrapper (operationsOf candidates)]
  Declaration.verifyClosure declarations
  return ⟨declarations, state.warnings⟩

end

section
variable {index : Index} {dialect : Dialect} {alarm : CompileError}
  {planned : List (Pointer × String)}

/-- No more places are promoted than there are. -/
theorem promoted_length_le {state : State} (hv : state.Valid index planned) :
    state.promoted.length ≤ index.size := by
  have indexed : ∀ place ∈ state.promoted.map (·.1), (index.get? place).isSome := by
    intro place hm
    obtain ⟨entry, he, rfl⟩ := List.mem_map.1 hm
    exact hv.promoted entry he
  have := Index.length_le_size hv.promoted_nodup indexed
  rwa [List.length_map] at this

theorem promotedWithin_of_all {state : State} {deep : Nat} (rounds : Nat) {done : List Pointer}
    (all : state.promoted.length ≤ done.length) :
    (promotedWithin index alarm deep rounds done).run.run state = (.ok [], state) := by
  cases rounds with
  | zero =>
    rw [promotedWithin, run_get, if_pos all]
    rfl
  | succ rounds =>
    rw [promotedWithin, run_get, List.getElem?_eq_none all]
    rfl

/-- One round: the next promoted place is a place of the document that is not done yet. -/
theorem promotedWithin_of_next {state : State} {deep rounds : Nat} {done : List Pointer}
    {target : index.Target} {name : String} (fresh : target.pointer ∉ done)
    (next : state.promoted[done.length]? = some (target.pointer, name)) :
    (promotedWithin index alarm deep (rounds + 1) done).run.run state =
      (do
        let type ← typeWithin index target.pointer alarm deep [target.pointer] target.node
          target.pointer
        let later ← promotedWithin index alarm deep rounds (done ++ [target.pointer])
        return ⟨name, target.pointer, .promoted, type, Schema.doc? target.node⟩ :: later :
          TypingM (List Declaration)).run.run state := by
  have fresh : done.contains target.pointer = false := by simpa using fresh
  rw [promotedWithin, run_get, next]
  simp only [Index.target?_of_some target.found, fresh]
  rfl

/-- As the places promoted are distinct, every round has one place less to declare. -/
theorem promotedWithin_eq {deep : Nat} (rounds : Nat) (state : State)
    (hv : state.Valid index planned) (done : List (Pointer × String))
    (hd : done <+: state.promoted) (enough : index.size ≤ rounds + done.length)
    (within : typingBound index index.document.root ≤ deep) :
    (promotedWithin index alarm deep rounds (done.map (·.1))).run.run state =
      (promotedDeclarations index (done.map (·.1))).run.run state := by
  obtain ⟨rest, hs⟩ := hd
  have few := promoted_length_le hv
  cases rest with
  | nil =>
    rw [List.append_nil] at hs
    rw [promotedDeclarations_of_none (hs ▸ nextPromoted?_of_nil)]
    apply promotedWithin_of_all
    apply Nat.le_of_eq
    rw [hs, List.length_map]
  | cons entry rest =>
    obtain ⟨target, same, next⟩ := nextPromoted?_of_cons hv hs.symm
    have at_hand : state.promoted[(done.map (·.1)).length]? = some (target.pointer, entry.2) := by
      rw [← hs, same]
      simp
    cases rounds with
    | zero =>
      rw [← hs, List.length_append, List.length_cons] at few
      omega
    | succ rounds =>
      rw [promotedDeclarations_of_some next,
        promotedWithin_of_next (not_mem_of_nextPromoted next) at_hand,
        typeWithin_eq _ _ (Nat.le_trans (typingBound_le target) within)]
      rcases (typeOfRoot_yields index target.node target.pointer target.found state).cases with
        ⟨type, mid, he, run, -⟩ | ⟨error, after, he, -⟩
      · have grown : done ++ [entry] <+: mid.promoted := by
          apply List.IsPrefix.trans _ run.grows.promoted
          rw [← hs]
          exact ⟨rest, by simp⟩
        have later := promotedWithin_eq rounds mid (run_valid run hv) (done ++ [entry]) grown
          (by rw [List.length_append, List.length_singleton]; omega) within
        have passed : (done ++ [entry]).map (·.1) = done.map (·.1) ++ [target.pointer] := by
          simp [same]
        rw [passed] at later
        rw [run_bind_of_ok he, run_bind_of_ok he]
        simp only [ExceptT.run_bind, StateT.run_bind, later]
      · rw [run_bind_of_error he, run_bind_of_error he]

theorem typedWithin_eq {deep rounds : Nat} {names : NameTable} {candidates : List Candidate}
    (hv : State.Valid index planned { names })
    (stand : ∀ candidate ∈ candidates, candidate.Stands index) (enough : index.size ≤ rounds)
    (within : typingBound index index.document.root ≤ deep) :
    (typedWithin index dialect alarm deep rounds candidates).run.run { names } =
      (typedDeclarations index dialect candidates).run.run { names } := by
  unfold typedWithin typedDeclarations
  rcases (allDeclarations_yields dialect stand { names }).cases with
    ⟨declared, mid, he, run, -⟩ | ⟨error, after, he, -⟩
  · have promoted : (promotedWithin index alarm deep rounds []).run.run mid =
        (promotedDeclarations index []).run.run mid :=
      promotedWithin_eq rounds mid (run_valid run hv) [] List.nil_prefix enough within
    rw [run_bind_of_ok he, run_bind_of_ok he]
    simp only [ExceptT.run_bind, StateT.run_bind, promoted]
  · rw [run_bind_of_error he, run_bind_of_error he]

theorem assembleWithin_eq {deep rounds : Nat} (rawSchema : Bool) (enough : index.size ≤ rounds)
    (within : typingBound index index.document.root ≤ deep) :
    assembleWithin index dialect alarm rawSchema deep rounds = assemble index dialect rawSchema := by
  unfold assembleWithin assemble
  cases hc : (Api.candidates index dialect rawSchema index.locations).run {} with
  | error error => rfl
  | ok result =>
    obtain ⟨candidates, names⟩ := result
    obtain ⟨valid, -, stand⟩ := candidates_planned.of_ok hc
    have typed : (typedWithin index dialect alarm deep rounds candidates).run.run { names } =
        (typedDeclarations index dialect candidates).run.run { names } :=
      typedWithin_eq (valid_start valid) stand enough within
    simp only [bind, Except.bind]
    exact typed ▸ rfl

end

/-- Assembly ends on every document, whatever its references. With calls no deeper than
`typingBound`, along paths of distinct places, typing a schema gives what it gives without a bound;
a chain of references passes each place once at most; and a round of declaring promoted places is
made for each place at most. The alarm is any error, so it is never raised. -/
theorem assemble_terminates (index : Index) (dialect : Dialect) (rawSchema : Bool)
    (alarm : CompileError) :
    (∀ node place,
      typeWithin index place alarm (typingBound index node) [place] node place =
        typeOfRoot index node place) ∧
    (∀ (α : Type) (stop? : Pointer → Option α) (here : Located),
      chainWithin index stop? here.place alarm (index.size + 1) [] here =
        followChain index stop? [] here) ∧
    assembleWithin index dialect alarm rawSchema (typingBound index index.document.root)
      index.size = assemble index dialect rawSchema := by
  refine ⟨?typing, ?chains, ?promoted⟩
  case typing =>
    intro node place
    exact typeWithin_eq node place (Nat.le_refl _)
  case chains =>
    intro α stop? here
    exact chainWithin_eq here
  case promoted => exact assembleWithin_eq rawSchema (Nat.le_refl _) (Nat.le_refl _)

end ApiTypes.Api
