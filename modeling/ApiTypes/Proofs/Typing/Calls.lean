import ApiTypes.Proofs.Typing.SharedPath
import ApiTypes.Proofs.Api.Closure

/-!
# Call after call

What holds of the state of typing after any calls, also after calls that failed, of any nodes at
any places and on any paths.

* `Change`: what typing does to its state, wherever it is called; `Keeps` holds at the start, and
  every change keeps it (`change_keeps`), so any number of changes do (`changes_keep`);
* `Follows`: an action that shares a path does as the one that is handed it, and takes off the path
  what it put there, whether it fails or not. It is closed under sequencing (`Follows.bind`), so
  that each part of typing has one lemma, up to `nodeOn_follows`;
* `calls_keep`: the two together, for every sequence of calls.
-/

namespace ApiTypes.Typing

open Schema TypeExpr
open Api (RefsNamed)

/-! ## Changes of the state -/

/-- One change of the state, by a call from anywhere. -/
inductive Change (index : Index) : State → State → Prop
  | warn {state : State} (warning : Warning) :
      Change index state { state with warnings := state.warnings ++ [warning] }
  | promote {state : State} (target : index.Target)
      (unnamed : state.names.get? target.pointer = none) :
      Change index state { state with
        names := state.names.extended target.pointer (target.pointer.last?.getD "Schema")
        promoted := state.promoted ++ [(target.pointer, state.promotedName target.pointer)] }
  | record {state : State} (place : Pointer) (type : TypeExpr) (named : RefsNamed state type) :
      Change index state { state with expanded := state.expanded ++ [(place, type)] }

abbrev Changes (index : Index) : State → State → Prop :=
  Relation.ReflTransGen (Change index)

section
variable {index : Index} {names : NameTable}

theorem Change.grows {a b : State} (h : Change index a b) : a.Grows b := by
  cases h with
  | warn => exact a.grows_warn _
  | promote => exact a.grows_promote _ _ _
  | record => exact a.grows_record _ _

theorem Changes.grows {a b : State} (h : Changes index a b) : a.Grows b := by
  induction h with
  | refl => exact .refl a
  | tail _ change ih => exact ih.trans change.grows

/-- All references in the types recorded are to names given. -/
def State.Closed (state : State) : Prop :=
  ∀ entry ∈ state.expanded, RefsNamed state entry.2

theorem change_closed {a b : State} (h : Change index a b) (closed : a.Closed) : b.Closed := by
  have later : ∀ entry ∈ a.expanded, RefsNamed b entry.2 := fun entry hm =>
    RefsNamed.mono entry.2 h.grows (closed entry hm)
  cases h with
  | warn | promote => exact later
  | record place type named =>
    intro entry hm
    rcases List.mem_append.1 hm with hm | hm
    · exact later entry hm
    · rw [List.mem_singleton.1 hm]
      exact named

theorem changes_closed {a b : State} (h : Changes index a b) (closed : a.Closed) : b.Closed := by
  induction h with
  | refl => exact closed
  | tail _ change ih => exact change_closed change ih

/-- What a state keeps that typing started with the given names. -/
structure Keeps (index : Index) (names : NameTable) (state : State) : Prop where
  /-- All names but those at the start come from promotions, in their order. So what was promoted
  before a place tells which table of names there was when it was promoted. -/
  entries : state.names.entries = names.entries ++ state.promoted
  unnamed : ∀ before place name rest, state.promoted = before ++ (place, name) :: rest →
    NameTable.get? ⟨names.entries ++ before⟩ place = none
  indexed : ∀ entry ∈ state.promoted, (index.get? entry.1).isSome
  closed : state.Closed

theorem keeps_start (index : Index) (names : NameTable) : Keeps index names { names } where
  entries := by simp
  unnamed before place name rest h := by simp at h
  indexed := by simp
  closed := by simp [State.Closed]

theorem change_keeps {a b : State} (h : Change index a b) (kept : Keeps index names a) :
    Keeps index names b := by
  have closed := change_closed h kept.closed
  cases h with
  | warn | record => exact ⟨kept.entries, kept.unnamed, kept.indexed, closed⟩
  | promote target unnamed =>
    refine ⟨?_, ?_, ?_, closed⟩
    · simp only [NameTable.extended, State.promotedName, kept.entries, List.append_assoc]
    · intro before place name rest split
      rcases split_of_append_singleton split with ⟨more, -, earlier⟩ | ⟨-, last, rfl⟩
      · exact kept.unnamed before place name more earlier
      · obtain ⟨rfl, -⟩ := Prod.mk.inj last
        rw [← kept.entries]
        exact unnamed
    · intro entry hm
      rcases List.mem_append.1 hm with hm | hm
      · exact kept.indexed entry hm
      · rw [List.mem_singleton.1 hm]
        simp [target.found]

theorem changes_keep {a b : State} (h : Changes index a b) (kept : Keeps index names a) :
    Keeps index names b := by
  induction h with
  | refl => exact kept
  | tail _ change ih => exact change_keeps change ih

/-- A place that was promoted before has a name, so it is not promoted again. -/
theorem Keeps.promoted_nodup {state : State} (kept : Keeps index names state) :
    (state.promoted.map (·.1)).Nodup := by
  rw [List.nodup_iff_pairwise_ne, List.pairwise_map, List.pairwise_iff_forall_sublist]
  intro a b both same
  obtain ⟨before, rest, split, first⟩ : ∃ before rest,
      state.promoted = before ++ b :: rest ∧ a ∈ before := by
    obtain ⟨left, right, split, first, second⟩ := List.cons_sublist_iff.1 both
    obtain ⟨before, rest, rfl⟩ := List.append_of_mem (List.singleton_sublist.1 second)
    exact ⟨left ++ before, rest, by simp [split], List.mem_append_left _ first⟩
  have fresh := kept.unnamed before b.1 b.2 rest split
  rw [NameTable.get?_eq_none_iff] at fresh
  refine fresh (List.mem_map.2 ⟨a, List.mem_append_right _ first, same⟩)

/-- The place that was just promoted has the name it was promoted with. -/
theorem Keeps.get?_promoted {state : State} (kept : Keeps index names state)
    {before rest : List (Pointer × String)} {place : Pointer} {name : String}
    (split : state.promoted = before ++ (place, name) :: rest) :
    NameTable.get? ⟨names.entries ++ before ++ [(place, name)]⟩ place = some name := by
  have fresh := kept.unnamed before place name rest split
  rw [NameTable.get?_append ⟨names.entries ++ before⟩, fresh]
  simp

end

/-! ## On a shared path as on one's own -/

namespace OnSharedPath

section
variable {α β : Type}

/-- From a state, the action on a shared path ends as the other one does and leaves the path as it
was; and the state is only changed in the ways there are. `post` holds of a result from then on. -/
structure FollowsFrom (index : Index) (path : List Pointer) (state : State) (shared : SharedM α)
    (action : TypingM α) (post : State → α → Prop) : Prop where
  same : shared.run.run ⟨state, path⟩ =
    ((action.run.run state).1, ⟨(action.run.run state).2, path⟩)
  changes : Changes index state (action.run.run state).2
  result : ∀ a, (action.run.run state).1 = .ok a →
    ∀ later, (action.run.run state).2.Grows later → post later a

def Follows (index : Index) (path : List Pointer) (shared : SharedM α) (action : TypingM α)
    (post : State → α → Prop) : Prop :=
  ∀ state, state.Closed → FollowsFrom index path state shared action post

variable {index : Index} {path : List Pointer}

theorem FollowsFrom.pure {state : State} {a : α} {post : State → α → Prop}
    (h : ∀ later, state.Grows later → post later a) :
    FollowsFrom index path state (Pure.pure a) (Pure.pure a) post where
  same := rfl
  changes := .refl
  result b hb later grows := by
    cases hb
    exact h later grows

theorem FollowsFrom.throw {state : State} {error : CompileError} {post : State → α → Prop} :
    FollowsFrom index path state (MonadExcept.throw error) (MonadExcept.throw error) post where
  same := rfl
  changes := .refl
  result b hb := by cases hb

theorem FollowsFrom.bind {state : State} {shared : SharedM α} {action : TypingM α}
    {sharedNext : α → SharedM β} {next : α → TypingM β} {mid : State → α → Prop}
    {post : State → β → Prop} (closed : state.Closed)
    (first : FollowsFrom index path state shared action mid)
    (following : ∀ a after, after.Closed → (∀ later, after.Grows later → mid later a) →
      FollowsFrom index path after (sharedNext a) (next a) post) :
    FollowsFrom index path state (shared >>= sharedNext) (action >>= next) post := by
  obtain ⟨same, changes, result⟩ := first
  rcases hr : action.run.run state with ⟨error | a, after⟩
  · rw [hr] at same changes
    have stopped := run_bind_of_error same sharedNext
    have stopped' := run_bind_of_error hr next
    refine ⟨?_, ?_, ?_⟩
    · rw [stopped, stopped']
    · rw [stopped']
      exact changes
    · rw [stopped']
      intro b hb
      cases hb
  · rw [hr] at same changes result
    have on := run_bind_of_ok same sharedNext
    have on' := run_bind_of_ok hr next
    obtain ⟨same', changes', result'⟩ := following a after (changes_closed changes closed) (result a rfl)
    refine ⟨?_, ?_, ?_⟩
    · rw [on, on', same']
    · rw [on']
      exact changes.trans changes'
    · rw [on']
      exact result'

theorem Follows.pure {a : α} {post : State → α → Prop} (h : ∀ state, post state a) :
    Follows index path (Pure.pure a) (Pure.pure a) post :=
  fun _ _ => .pure fun later _ => h later

theorem Follows.bind {shared : SharedM α} {action : TypingM α} {sharedNext : α → SharedM β}
    {next : α → TypingM β} {mid : State → α → Prop} {post : State → β → Prop}
    (first : Follows index path shared action mid)
    (following : ∀ a, Follows index path (sharedNext a) (next a)
      fun state b => mid state a → post state b) :
    Follows index path (shared >>= sharedNext) (action >>= next) post := by
  refine fun state closed => (first state closed).bind closed fun a after closed hm => ?_
  obtain ⟨same, changes, result⟩ := following a after closed
  exact ⟨same, changes, fun b hb later grows =>
    result b hb later grows (hm later (changes.grows.trans grows))⟩

theorem Follows.imp {shared : SharedM α} {action : TypingM α} {post post' : State → α → Prop}
    (h : Follows index path shared action post) (hp : ∀ state a, post state a → post' state a) :
    Follows index path shared action post' :=
  fun state closed => { h state closed with
    result := fun a ha later grows => hp later a ((h state closed).result a ha later grows) }

theorem Follows.map {shared : SharedM α} {action : TypingM α} {f : α → β}
    {post : State → β → Prop}
    (h : Follows index path shared action fun state a => post state (f a)) :
    Follows index path (f <$> shared) (f <$> action) post := by
  rw [map_eq_pure_bind, map_eq_pure_bind]
  exact h.bind fun a => .pure fun _ hp => hp

theorem run_ofTyping (action : TypingM α) (shared : Shared) :
    (OnSharedPath.ofTyping action).run.run shared =
      ((action.run.run shared.state).1, { shared with state := (action.run.run shared.state).2 }) :=
  rfl

theorem ofTyping_bind (action : TypingM α) (next : α → TypingM β) :
    OnSharedPath.ofTyping (action >>= next) =
      OnSharedPath.ofTyping action >>= fun a => OnSharedPath.ofTyping (next a) := by
  funext shared
  change (OnSharedPath.ofTyping (action >>= next)).run.run shared =
    (OnSharedPath.ofTyping action >>= fun a => OnSharedPath.ofTyping (next a)).run.run shared
  have first := run_ofTyping action shared
  rcases hr : action.run.run shared.state with ⟨error | a, after⟩
  · rw [hr] at first
    rw [run_bind_of_error first, run_ofTyping, run_bind_of_error hr]
  · rw [hr] at first
    rw [run_bind_of_ok first, run_ofTyping, run_ofTyping, run_bind_of_ok hr]

/-- What has nothing to do with the path. -/
theorem FollowsFrom.ofTyping {state : State} {action : TypingM α} {post : State → α → Prop}
    (changes : Changes index state (action.run.run state).2)
    (result : ∀ a, (action.run.run state).1 = .ok a →
      ∀ later, (action.run.run state).2.Grows later → post later a) :
    FollowsFrom index path state (OnSharedPath.ofTyping action) action post :=
  ⟨rfl, changes, result⟩

end

/-! ### Warnings, names and values -/

section
variable {index : Index} {path : List Pointer}

theorem note_follows (kind : WarningKind) (place : Pointer) (note : String) :
    Follows index path
      (ofTyping (do warn kind place note; return TypeExpr.unknown (some note)))
      (do warn kind place note; return .unknown (some note)) RefsNamed := by
  intro state _
  refine .ofTyping (.single (.warn _)) fun type ht later _ name hn => ?_
  cases ht
  cases hn

theorem promote_followsFrom (target : index.Target) {state : State}
    (unnamed : state.names.get? target.pointer = none) :
    FollowsFrom index path state (ofTyping (promote target.pointer)) (promote target.pointer)
      fun state name => name ∈ state.names.taken := by
  have run := run_promote target.pointer state
  rw [NameTable.assign_of_none _ unnamed] at run
  refine .ofTyping ?_ ?_
  · rw [run]
    exact .single (.promote target unnamed)
  · rw [run]
    intro name hn later grows
    cases hn
    refine (grows.names.map (·.2)).subset ?_
    simp [NameTable.extended]

theorem refsNamed_ref {state : State} {name : String} (h : name ∈ state.names.taken) :
    RefsNamed state (.ref name) := by
  intro other ho
  cases ho
  exact h

theorem refToPromoted_followsFrom (target : index.Target) {state : State}
    (closed : state.Closed) (unnamed : state.names.get? target.pointer = none) :
    FollowsFrom index path state (do return .ref (← ofTyping (promote target.pointer)))
      (do return .ref (← promote target.pointer)) RefsNamed :=
  (promote_followsFrom target unnamed).bind closed fun _ _ _ hn => .pure fun later grows =>
    refsNamed_ref (hn later grows)

theorem literalType_follows (place : Pointer) (value : Json) :
    Follows index path (ofTyping (literalType place value)) (literalType place value)
      RefsNamed := by
  cases value with
  | null | bool | string => exact .pure fun _ _ hn => by cases hn
  | number value =>
    cases value with
    | int | float => exact .pure fun _ _ hn => by cases hn
  | array | object => exact note_follows _ _ _

theorem literalTypes_follows (place : Pointer) (values : List Json) :
    Follows index path (ofTyping (literalTypes place values)) (literalTypes place values)
      fun state types => ∀ type ∈ types, RefsNamed state type := by
  induction values with
  | nil => exact .pure fun _ => by simp
  | cons value rest ih =>
    have split : ofTyping (literalTypes place (value :: rest)) = do
        let type ← ofTyping (literalType place value)
        let types ← ofTyping (literalTypes place rest)
        return type :: types := by
      simp only [literalTypes, ofTyping_bind]
      rfl
    rw [split]
    refine (literalType_follows place value).bind fun type => ih.bind fun types => .pure ?_
    intro state ht h
    exact List.forall_mem_cons.2 ⟨h, ht⟩

theorem notUnder_follows (place : Pointer) (schema : Option Json) :
    Follows index path (ofTyping (notUnder place schema)) (notUnder place schema)
      fun state types => ∀ type ∈ types, RefsNamed state type := by
  cases schema with
  | none => exact .pure fun _ => by simp
  | some schema =>
    have split : ofTyping (notUnder place (some schema)) = do
        return [← ofTyping (unsupported place "`not` has no TypeScript equivalent")] := by
      simp only [notUnder, ofTyping_bind]
      rfl
    rw [split]
    exact (note_follows _ _ _).bind fun type => .pure fun state ht => by simpa using ht

end

/-! ### Parts of a schema -/

section
variable {index : Index} {path : List Pointer} {node : Json}
  {sharedInner : Inner node → Pointer → SharedM TypeExpr} {typeInner : TypeInner node}
  (inner : ∀ (inner : Inner node) place,
    Follows index path (sharedInner inner place) (typeInner inner place) RefsNamed)
include inner

theorem typesOfList_follows (place : Pointer) (number : Nat) (inners : List (Inner node)) :
    Follows index path (typesOfList sharedInner place number inners)
      (Typing.typesOfList typeInner place number inners)
      fun state types => ∀ type ∈ types, RefsNamed state type := by
  induction inners generalizing number with
  | nil => exact .pure fun _ => by simp
  | cons first rest ih =>
    refine (inner first _).bind fun type => (ih (number + 1)).bind fun types => .pure ?_
    intro state ht h
    exact List.forall_mem_cons.2 ⟨h, ht⟩

theorem typesOfFields_follows (place : Pointer) (fields : List (String × Inner node)) :
    Follows index path (typesOfFields sharedInner place fields)
      (Typing.typesOfFields typeInner place fields)
      fun state types => ∀ type ∈ types, RefsNamed state type := by
  induction fields with
  | nil => exact .pure fun _ => by simp
  | cons first rest ih =>
    obtain ⟨key, first⟩ := first
    refine (inner first _).bind fun type => ih.bind fun types => .pure ?_
    intro state ht h
    exact List.forall_mem_cons.2 ⟨h, ht⟩

theorem additionalType_follows (place : Pointer) (additional : Additional (Inner node)) :
    Follows index path (additionalType sharedInner place additional)
      (Typing.additionalType typeInner place additional)
      fun state type => ∀ t, type = some t → RefsNamed state t := by
  cases additional with
  | absent | forbidden => exact .pure fun _ => by simp
  | any =>
    refine .pure fun _ t ht name hn => ?_
    cases ht
    cases hn
  | schema i =>
    refine .map ((inner i _).imp fun state type ht t h => ?_)
    cases h
    exact ht

omit inner in
theorem refsNamed_object {state : State} (hp : Preserved index state (RefsNamed state))
    {shape : ObjectShape (Inner node)} {types : List TypeExpr} {additional : Option TypeExpr}
    (ht : ∀ type ∈ types, RefsNamed state type)
    (ha : ∀ t, additional = some t → RefsNamed state t) :
    RefsNamed state (.object (membersOf shape types additional)) := by
  intro name hn
  obtain ⟨member, hm, type, hmt, inside⟩ := mark_of_occurs_object (.ref _) hn
  rcases List.mem_append.1 hm with hm | hm
  · rw [← List.map_uncurry_zip_eq_zipWith] at hm
    obtain ⟨⟨field, made⟩, hz, rfl⟩ := List.mem_map.1 hm
    rw [List.mem_singleton.1 hmt] at inside
    exact ht made (List.of_mem_zip hz).2 name inside
  · obtain ⟨value, hsome, rfl⟩ := List.mem_map.1 hm
    rcases List.mem_pair.1 hmt with rfl | rfl
    · cases inside
    · exact preserved_widenIndex hp (ha value (by simpa using hsome)) ht name inside

theorem objectType_follows (shape : ObjectShape (Inner node)) (place : Pointer) :
    Follows index path (objectType sharedInner shape place)
      (Typing.objectType typeInner shape place) RefsNamed := by
  refine (typesOfFields_follows inner _ _).bind fun types =>
    (additionalType_follows inner _ _).bind fun additional => .pure ?_
  intro state ha ht
  exact refsNamed_object (Api.refsNamed_preserved index state) ht ha

theorem arrayType_follows (place : Pointer) (items : Items (Inner node)) :
    Follows index path (arrayType sharedInner place items)
      (Typing.arrayType typeInner place items) RefsNamed := by
  have preserved := Api.refsNamed_preserved index
  cases items with
  | absent => exact .pure fun state => (preserved state).array _ (preserved state).unknown
  | single i => exact .map ((inner i _).imp fun state type => (preserved state).array type)
  | tuple inners =>
    exact (typesOfList_follows inner _ _ _).bind fun types => .pure fun state ht =>
      (preserved state).array _ ((preserved state).union _ ht)

theorem coreType_follows (place : Pointer) (core : Core (Inner node)) :
    Follows index path (coreType sharedInner place core)
      (Typing.coreType typeInner place core) RefsNamed := by
  cases core with
  | scalar kind => exact .pure fun state => (Api.refsNamed_preserved index state).scalar kind
  | array items => exact arrayType_follows inner place items
  | object shape => exact objectType_follows inner shape place

theorem coreTypes_follows (place : Pointer) (cores : List (Core (Inner node))) :
    Follows index path (coreTypes sharedInner place cores)
      (Typing.coreTypes typeInner place cores)
      fun state types => ∀ type ∈ types, RefsNamed state type := by
  induction cores with
  | nil => exact .pure fun _ => by simp
  | cons core rest ih =>
    refine (coreType_follows inner place core).bind fun type => ih.bind fun types => .pure ?_
    intro state ht h
    exact List.forall_mem_cons.2 ⟨h, ht⟩

theorem baseType_follows (place : Pointer) (base : Base (Inner node)) :
    Follows index path (baseType sharedInner place base)
      (Typing.baseType typeInner place base) RefsNamed := by
  cases base with
  | one core => exact coreType_follows inner place core
  | several cores =>
    exact (coreTypes_follows inner place cores).bind fun types =>
      .pure fun state => (Api.refsNamed_preserved index state).union types

theorem baseUnder_follows (place : Pointer) (base : Option (Base (Inner node))) :
    Follows index path (baseUnder sharedInner place base)
      (Typing.baseUnder typeInner place base)
      fun state types => ∀ type ∈ types, RefsNamed state type := by
  cases base with
  | none => exact .pure fun _ => by simp
  | some base =>
    exact (baseType_follows inner place base).bind fun type => .pure fun state ht => by simpa using ht

theorem allUnder_follows (place : Pointer) (inners : Option (List (Inner node))) :
    Follows index path (allUnder sharedInner place inners)
      (Typing.allUnder typeInner place inners)
      fun state types => ∀ type ∈ types, RefsNamed state type := by
  cases inners with
  | none => exact .pure fun _ => by simp
  | some inners =>
    refine (typesOfList_follows inner _ _ inners).bind fun types => .pure fun state ht => ?_
    exact List.forall_mem_singleton.2 ((Api.refsNamed_preserved index state).intersection types ht)

omit inner in
theorem refsNamed_alternativesOf {state : State} (hp : Preserved index state (RefsNamed state))
    {inners : List (Inner node)} {types : List TypeExpr} (ht : ∀ type ∈ types, RefsNamed state type) :
    ∀ type ∈ alternativesOf node inners types, RefsNamed state type := by
  unfold alternativesOf
  split
  · exact ht
  · rename_i property mapping _
    intro type hm
    rw [← List.map_uncurry_zip_eq_zipWith] at hm
    obtain ⟨⟨i, made⟩, hz, rfl⟩ := List.mem_map.1 hm
    have named := ht made (List.of_mem_zip hz).2
    simp only [Function.uncurry_apply_pair, taggedType]
    split
    · exact hp.tagged _ _ _ named
    · exact named

theorem choiceUnder_follows (place : Pointer) (keyword : String)
    (inners : Option (List (Inner node))) :
    Follows index path (choiceUnder sharedInner place keyword inners)
      (Typing.choiceUnder typeInner place keyword inners)
      fun state types => ∀ type ∈ types, RefsNamed state type := by
  cases inners with
  | none => exact .pure fun _ => by simp
  | some inners =>
    have listed := typesOfList_follows inner (place.child keyword) 0 inners
    have choice (types : List TypeExpr) (state : State) (ht : ∀ type ∈ types, RefsNamed state type) :
        ∀ type ∈ [TypeExpr.unionOf (alternativesOf node inners types)], RefsNamed state type :=
      have preserved := Api.refsNamed_preserved index state
      List.forall_mem_singleton.2 (preserved.union _ (refsNamed_alternativesOf preserved ht))
    rw [choiceUnder_some]
    exact listed.bind fun types => .pure (choice types)

theorem compositeType_follows (composition : Composition (Inner node))
    (base : Option (Base (Inner node))) (place : Pointer) :
    Follows index path (compositeType sharedInner composition base place)
      (Typing.compositeType typeInner composition base place)
      fun state result => RefsNamed state result.1 := by
  refine (baseUnder_follows inner place base).bind fun ofBase =>
    (allUnder_follows inner place composition.allOf).bind fun ofAll =>
    (choiceUnder_follows inner place "oneOf" composition.oneOf).bind fun ofOne =>
    (choiceUnder_follows inner place "anyOf" composition.anyOf).bind fun ofAny =>
    (notUnder_follows place composition.not).bind fun ofNot => .pure ?_
  intro state hn hy ho ha hb
  refine (Api.refsNamed_preserved index state).intersection _ fun type hm => ?_
  simp only [List.mem_append] at hm
  rcases hm with (((hm | hm) | hm) | hm) | hm
  · exact hb type hm
  · exact ha type hm
  · exact ho type hm
  · exact hy type hm
  · exact hn type hm

theorem shapeType_follows {sharedFollow : String → Pointer → SharedM TypeExpr}
    {follow : String → Pointer → TypingM TypeExpr}
    (followed : ∀ reference place,
      Follows index path (sharedFollow reference place) (follow reference place) RefsNamed)
    (place : Pointer) (shape : Shape (Inner node)) :
    Follows index path (shapeType sharedInner sharedFollow place shape)
      (Typing.shapeType typeInner follow place shape)
      fun state result => RefsNamed state result.1 := by
  have alone {shared : SharedM TypeExpr} {action : TypingM TypeExpr}
      (h : Follows index path shared action RefsNamed) :
      Follows index path (do return (← shared, false)) (do return (← action, false))
        fun state result => RefsNamed state result.1 :=
    h.bind fun type => .pure fun _ ht => ht
  cases shape with
  | any => exact .pure fun state => (Api.refsNamed_preserved index state).unknown
  | nothing => exact .pure fun state => (Api.refsNamed_preserved index state).never
  | reference reference => exact alone (followed reference place)
  | enumeration values =>
    exact (literalTypes_follows place values).bind fun types => .pure fun state ht =>
      (Api.refsNamed_preserved index state).union types ht
  | enumerationWithComposition => exact alone (note_follows _ _ _)
  | constant value => exact alone (literalType_follows place value)
  | composite composition base => exact compositeType_follows inner composition base place
  | structural base => exact alone (baseType_follows inner place base)
  | unsupported reason => exact alone (note_follows _ _ _)

end

/-! ### Schemas and references -/

section
variable {index : Index} {path : List Pointer}

theorem withNull_follows (node : Json) (place : Pointer) (type : TypeExpr) (choiceHasNull : Bool) :
    Follows index path (ofTyping (withNull node place type choiceHasNull))
      (withNull node place type choiceHasNull)
      fun state result => RefsNamed state type → RefsNamed state result := by
  unfold withNull
  split
  · exact .pure fun _ => id
  · split
    · exact (note_follows _ _ _).imp fun _ _ h _ => h
    · refine .pure fun state h => (Api.refsNamed_preserved index state).union _ ?_
      intro t hm
      rcases List.mem_pair.1 hm with rfl | rfl
      · exact h
      · intro name hn
        cases hn

/-- With a place on the path an action may do as one that is handed the path with the place. -/
theorem whileOn_follows {place : Pointer} {shared : SharedM TypeExpr} {action : TypingM TypeExpr}
    {post : State → TypeExpr → Prop} (h : Follows index (path ++ [place]) shared action post) :
    Follows index path (whileOn place shared) action post := by
  intro state closed
  obtain ⟨same, changes, result⟩ := h state closed
  refine ⟨?_, changes, result⟩
  have pushed : (push place).run.run ⟨state, path⟩ = (.ok (), ⟨state, path ++ [place]⟩) := rfl
  have ended : (outcome shared).run.run ⟨state, path ++ [place]⟩ =
      (.ok (action.run.run state).1, ⟨(action.run.run state).2, path ++ [place]⟩) := by
    change (Except.ok (shared.run.run _).1, (shared.run.run _).2) = _
    rw [same]
  have popped : pop.run.run ⟨(action.run.run state).2, path ++ [place]⟩ =
      (.ok (), ⟨(action.run.run state).2, path⟩) := by
    change (Except.ok (), Shared.mk _ (path ++ [place]).dropLast) = _
    rw [List.dropLast_concat]
  rw [whileOn, run_bind_of_ok pushed, run_bind_of_ok ended, run_bind_of_ok popped]
  cases (action.run.run state).1 with
  | error error => rfl
  | ok type => rfl

theorem record_follows (place : Pointer) {type : TypeExpr} {state : State}
    (named : RefsNamed state type) :
    FollowsFrom index path state (ofTyping (recordExpansion place type))
      (recordExpansion place type) fun state _ => RefsNamed state type :=
  have change : Change index state _ := .record place type named
  .ofTyping (.single change) fun _ _ _ grows => RefsNamed.mono type (change.grows.trans grows) named

theorem FollowsFrom.get {α : Type} {state : State} {sharedNext : Shared → SharedM α}
    {next : State → TypingM α} {post : State → α → Prop}
    (h : FollowsFrom index path state (sharedNext ⟨state, path⟩) (next state) post) :
    FollowsFrom index path state (MonadState.get >>= sharedNext) (MonadState.get >>= next) post :=
  ⟨h.same, h.changes, h.result⟩

/-- A reference is followed alike, when the targets that are not on the path yet are expanded
alike. -/
theorem referenceOn_follows {expand : Json → Pointer → SharedM TypeExpr}
    (expanded : ∀ target : index.Target, target.pointer ∉ path →
      Follows index (path ++ [target.pointer]) (expand target.node target.pointer)
        (typeAt index (path ++ [target.pointer]) target.node target.pointer) RefsNamed)
    (reference : String) (place : Pointer) :
    Follows index path (referenceOn index expand reference place)
      (typeOfReference index path reference place) RefsNamed := by
  intro state closed
  rw [referenceOn, typeOfReference]
  cases index.resolve reference place with
  | error error => exact .throw
  | ok target =>
    refine .get ?_
    dsimp only
    cases unnamed : state.names.get? target.pointer with
    | some name =>
      have given : name ∈ state.names.taken :=
        List.mem_map_of_mem (f := (·.2)) (NameTable.mem_of_get? unnamed)
      exact .pure fun later grows => refsNamed_ref ((grows.names.map (·.2)).subset given)
    | none =>
      dsimp only
      by_cases cycle : target.isCycle path = true
      · rw [if_pos cycle, dif_pos cycle]
        exact refToPromoted_followsFrom target closed unnamed
      · rw [if_neg cycle, dif_neg cycle]
        have outside : target.pointer ∉ path := by simpa [Index.Target.isCycle] using cycle
        cases known : state.expanded.lookup target.pointer with
        | some type =>
          have named := closed _ (mem_of_lookup known)
          dsimp only
          split
          · exact .pure fun later grows => RefsNamed.mono type grows named
          · exact refToPromoted_followsFrom target closed unnamed
        | none =>
          refine (whileOn_follows (expanded target outside) state closed).bind closed
            fun type after closed named => ?_
          refine (record_follows target.pointer (named after (.refl after))).bind closed
            fun _ _ _ named => .pure named

/-- A target that goes on the path leaves one place less for further targets. -/
theorem room_for_target {bound : Nat} (target : index.Target) (outside : target.pointer ∉ path)
    (enough : index.unvisited path * (sizeOf index.document.root + 1) ≤ bound) :
    sizeOf target.node +
      index.unvisited (path ++ [target.pointer]) * (sizeOf index.document.root + 1) < bound := by
  have size := target.sizeOf_le
  have fewer := Nat.mul_le_mul_right (sizeOf index.document.root + 1)
    (Nat.succ_le_of_lt (Index.unvisited_lt target.found outside))
  rw [Nat.succ_mul] at fewer
  omega

/-- Typing on a shared path, within a bound that is enough for the node and for a target in every
place that is not on the path, is typing. -/
theorem nodeOn_follows (alarm : CompileError) (bound : Nat) (node : Json) (place : Pointer)
    (enough : sizeOf node + index.unvisited path * (sizeOf index.document.root + 1) < bound) :
    Follows index path (nodeOn index alarm bound node place) (typeAt index path node place)
      RefsNamed := by
  induction bound generalizing path node place with
  | zero => omega
  | succ bound ih =>
    rw [nodeOn, typeAt, typeOfNode]
    have inside (inner : Inner node) (place : Pointer) :
        Follows index path (nodeOn index alarm bound inner.node place)
          (typeOfNode (typeOfReference index path) inner.node place) RefsNamed := by
      apply ih
      have := inner.smaller
      omega
    have along (reference : String) (place : Pointer) :
        Follows index path (referenceOn index (nodeOn index alarm bound) reference place)
          (typeOfReference index path reference place) RefsNamed := by
      refine referenceOn_follows (fun target outside => ?_) reference place
      exact ih _ _ (room_for_target target outside (by omega))
    exact (shapeType_follows inside along place (shape node)).bind fun result =>
      withNull_follows node place result.1 result.2

theorem reference_follows (alarm : CompileError) (bound : Nat) (reference : String) (place : Pointer)
    (enough : index.unvisited path * (sizeOf index.document.root + 1) ≤ bound) :
    Follows index path (referenceOn index (nodeOn index alarm bound) reference place)
      (typeOfReference index path reference place) RefsNamed := by
  refine referenceOn_follows (fun target outside => ?_) reference place
  exact nodeOn_follows alarm bound _ _ (room_for_target target outside enough)

end
end OnSharedPath

/-! ## Calls -/

/-- A call of typing: of a declaration, which starts a path of its own, or of a schema or a
reference while the places on a path are being expanded. -/
inductive Call
  | root (node : Json) (place : Pointer)
  | schema (node : Json) (place : Pointer) (path : List Pointer)
  | reference (written : String) (place : Pointer) (path : List Pointer)

namespace Call

/-- The path that the call finds. -/
def path : Call → List Pointer
  | .root _ place => [place]
  | .schema _ _ path => path
  | .reference _ _ path => path

section
variable (index : Index)

def action : Call → TypingM TypeExpr
  | .root node place => typeOfRoot index node place
  | .schema node place path => typeAt index path node place
  | .reference written place path => typeOfReference index path written place

/-- The call with a shared path, where `bound` limits how deep the calls may be. -/
def onSharedPath (alarm : CompileError) (bound : Nat) : Call → SharedM TypeExpr
  | .root node place => OnSharedPath.nodeOn index alarm bound node place
  | .schema node place _ => OnSharedPath.nodeOn index alarm bound node place
  | .reference written place _ =>
    OnSharedPath.referenceOn index (OnSharedPath.nodeOn index alarm bound) written place

/-- A bound that is enough for the call. -/
noncomputable def bound (call : Call) : Nat :=
  let inside := match call with
    | .root node _ => sizeOf node
    | .schema node _ _ => sizeOf node
    | .reference _ _ _ => 0
  inside + index.unvisited call.path * (sizeOf index.document.root + 1) + 1

end
end Call

/-- The state after calls, of which some may have failed. -/
def afterCalls (index : Index) (state : State) (calls : List Call) : State :=
  calls.foldl (fun state call => ((call.action index).run.run state).2) state

/-- What a call in a state does, when typing started with the given names. -/
structure CallKeeps (index : Index) (names : NameTable) (state : State) (call : Call)
    (result : Except CompileError TypeExpr) (after : State) : Prop where
  /-- With the path shared, the call ends alike, and leaves the path as it found it. -/
  path : ∀ alarm bound, call.bound index ≤ bound →
    (call.onSharedPath index alarm bound).run.run ⟨state, call.path⟩ = (result, ⟨after, call.path⟩)
  /-- A name once given does not change. -/
  lasting : ∀ place name, state.names.get? place = some name → after.names.get? place = some name
  promoted : state.promoted <+: after.promoted
  warnings : state.warnings <+: after.warnings
  distinct : (after.promoted.map (·.1)).Nodup
  indexed : ∀ entry ∈ after.promoted, (index.get? entry.1).isSome
  /-- All names but those at the start are names of promoted places, in order of promotion. -/
  entries : after.names.entries = names.entries ++ after.promoted
  /-- So with the names from before its promotion a promoted place has none, and after it, it
  has. -/
  named : ∀ before place name rest, after.promoted = before ++ (place, name) :: rest →
    NameTable.get? ⟨names.entries ++ before⟩ place = none ∧
    NameTable.get? ⟨names.entries ++ before ++ [(place, name)]⟩ place = some name
  refs : ∀ type, result = .ok type → RefsNamed after type
  expanded : ∀ entry ∈ after.expanded, RefsNamed after entry.2

section
variable {index : Index} {names : NameTable}

theorem call_follows (call : Call) (alarm : CompileError) {bound : Nat}
    (enough : call.bound index ≤ bound) :
    OnSharedPath.Follows index call.path (call.onSharedPath index alarm bound) (call.action index)
      RefsNamed := by
  cases call with
  | root node place =>
    exact OnSharedPath.nodeOn_follows alarm bound node place (Nat.lt_of_succ_le enough)
  | schema node place path =>
    exact OnSharedPath.nodeOn_follows alarm bound node place (Nat.lt_of_succ_le enough)
  | reference written place path =>
    refine OnSharedPath.reference_follows alarm bound written place ?_
    simpa [Call.bound, Call.path] using Nat.le_of_succ_le enough

theorem afterCalls_keep {state : State} (kept : Keeps index names state) (calls : List Call) :
    Keeps index names (afterCalls index state calls) := by
  induction calls generalizing state with
  | nil => exact kept
  | cons call rest ih =>
    have changes := (call_follows call (.unresolvedReference "" .root)
      (Nat.le_refl (call.bound index)) state kept.closed).changes
    exact ih (changes_keep changes kept)

end

/-- Whatever was called before, and whatever became of it, a call keeps all this. -/
theorem calls_keep (index : Index) (names : NameTable) (earlier : List Call) (call : Call) :
    let state := afterCalls index { names } earlier
    let (result, after) := (call.action index).run.run state
    CallKeeps index names state call result after := by
  intro state
  have kept : Keeps index names state := afterCalls_keep (keeps_start index names) earlier
  have follows (alarm : CompileError) {bound : Nat} (enough : call.bound index ≤ bound) :=
    call_follows call alarm enough state kept.closed
  obtain ⟨-, changes, result⟩ := follows (.unresolvedReference "" .root) (Nat.le_refl _)
  have grows := changes.grows
  have kept' := changes_keep changes kept
  exact {
    path := fun alarm bound enough => (follows alarm enough).same
    lasting := fun place name => NameTable.get?_mono grows.names
    promoted := grows.promoted
    warnings := grows.warnings
    distinct := kept'.promoted_nodup
    indexed := kept'.indexed
    entries := kept'.entries
    named := fun before place name rest split =>
      ⟨kept'.unnamed before place name rest split, kept'.get?_promoted split⟩
    refs := fun type ht => result type ht _ (.refl _)
    expanded := kept'.closed }

end ApiTypes.Typing
