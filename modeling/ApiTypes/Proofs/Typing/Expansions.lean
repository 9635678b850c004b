import ApiTypes.Proofs.Typing.Calls
import ApiTypes.Proofs.Typing.Lifted
import ApiTypes.Proofs.Typing.Settled

/-!
# The order of expansions

How a reference is answered depends on what was done before: on the names, on the path, on the
types recorded. All of them change while a target is being expanded. Here typing logs what becomes
of each reference, with the state at the time (`Moment`), and `Orderly` says of the log that no
target is expanded twice, and what later references to it are answered.

* `Watched.typeOfReference`: following references with the log kept;
* `Told`: what holds of log and state throughout, as far as it is needed to go on. There are two
  ways to go on: the state grows (`Told.grown`), or an event is logged (`Told.noted`);
* `Watches`: an action that keeps the log does as the one that does not, and keeps `Told`. It is
  closed under sequencing, so typing carries it (`watches_carries`), and what is left is to follow a
  reference (`typeOfReference_watches`), by induction on the places that are not on the path yet.
-/

namespace ApiTypes

namespace TypeExpr

/-- A type put together from others. -/
inductive IsComposite : TypeExpr → Prop
  | object (members : List Member) : IsComposite (.object members)
  | union (types : List TypeExpr) : IsComposite (.union types)
  | intersection (types : List TypeExpr) : IsComposite (.intersection types)

/-- A type is simple when nothing composite occurs in it. -/
theorem isSimple_iff : (type : TypeExpr) →
    (type.isSimple = true ↔ ∀ t, Occurs t type → ¬IsComposite t)
  | .array item => by
    rw [isSimple, isSimple_iff item]
    constructor
    · intro simple t occurs
      cases occurs with
      | here => rintro ⟨⟩
      | item inside => exact simple t inside
    · intro simple t occurs
      exact simple t (.item occurs)
  | .object members => by
    simp only [isSimple, Bool.false_eq_true, false_iff, not_forall, not_not]
    exact ⟨_, .here, .object members⟩
  | .union types => by
    simp only [isSimple, Bool.false_eq_true, false_iff, not_forall, not_not]
    exact ⟨_, .here, .union types⟩
  | .intersection types => by
    simp only [isSimple, Bool.false_eq_true, false_iff, not_forall, not_not]
    exact ⟨_, .here, .intersection types⟩
  | .primitive _ | .literal _ | .ref _ | .unknown _ => by
    simp only [isSimple, true_iff]
    rintro t ⟨⟩ ⟨⟩

end TypeExpr

namespace Typing

open TypeExpr

/-! ## The log -/

/-- What becomes of a reference, with the place that it resolves to. -/
inductive Event
  /-- The target is about to be expanded. -/
  | opened (place : Pointer)
  /-- The expansion of the target returned a type. -/
  | closed (place : Pointer) (type : TypeExpr)
  /-- The reference was answered without expanding its target. -/
  | answered (place : Pointer) (type : TypeExpr)

/-- An event and the state of typing at the time. -/
structure Moment where
  event : Event
  state : State

/-- The state of typing, and the log so far, oldest first. -/
structure Watched where
  state : State
  log : List Moment := []

/-- A step of typing that may add to the log. When it fails the state and the log are kept. -/
abbrev WatchedM := ExceptT CompileError (StateM Watched)

namespace Watched

def noted (watched : Watched) (event : Event) : Watched :=
  { watched with log := watched.log ++ [⟨event, watched.state⟩] }

/-- The states that the log tells of, and the last one. -/
def states (watched : Watched) : List State :=
  watched.log.map (·.state) ++ [watched.state]

/-- The type of a place is recorded, and its expansion returns. -/
def closing (watched : Watched) (place : Pointer) (type : TypeExpr) : Watched :=
  let state := { watched.state with expanded := watched.state.expanded ++ [(place, type)] }
  { watched with state }.noted (.closed place type)

/-- A step that follows no reference. -/
def ofTyping {α : Type} (action : TypingM α) : WatchedM α :=
  ExceptT.mk fun watched =>
    let (result, state) := action.run.run watched.state
    (result, { watched with state })

def note (event : Event) : WatchedM Unit :=
  modify fun watched => watched.noted event

/-- Answers a reference to a place with a type at hand. -/
def answer (place : Pointer) (action : TypingM TypeExpr) : WatchedM TypeExpr := do
  let type ← ofTyping action
  note (.answered place type)
  return type

/-- Answers a reference to a place by expanding it. -/
def expand (place : Pointer) (action : WatchedM TypeExpr) : WatchedM TypeExpr := do
  note (.opened place)
  let type ← action
  ofTyping (recordExpansion place type)
  note (.closed place type)
  return type

/-- The type for a reference written at `place`, while the places on `path` are being expanded. -/
def typeOfReference (index : Index) (path : List Pointer) (reference : String) (place : Pointer) :
    WatchedM TypeExpr := do
  match index.resolve reference place with
  | .error error => throw error
  | .ok target =>
    let state ← ofTyping get
    match state.names.get? target.pointer with
    | some name => answer target.pointer (return .ref name)
    | none =>
      if _onPath : target.isCycle path then
        answer target.pointer (do return .ref (← promote target.pointer))
      else
        match state.expanded.lookup target.pointer with
        | some type =>
          answer target.pointer (do
            if type.isSimple then return type else return .ref (← promote target.pointer))
        | none =>
          expand target.pointer
            (Lifted.typeOfNode ofTyping (typeOfReference index (path ++ [target.pointer]))
              target.node target.pointer)
termination_by index.unvisited path
decreasing_by
  exact Index.unvisited_lt target.found (by simpa [Index.Target.isCycle] using _onPath)

/-- The type of the schema at a place, while the places on `path` are being expanded. -/
def typeAt (index : Index) (path : List Pointer) (node : Json) (place : Pointer) :
    WatchedM TypeExpr :=
  Lifted.typeOfNode ofTyping (typeOfReference index path) node place

end Watched

def Call.watched (index : Index) : Call → WatchedM TypeExpr
  | .root node place => Watched.typeAt index [place] node place
  | .schema node place path => Watched.typeAt index path node place
  | .reference written place path => Watched.typeOfReference index path written place

/-! ## What is said of it -/

/-- The place whose expansion the event starts. -/
def Event.opening? : Event → Option Pointer
  | .opened place => some place
  | _ => none

/-- The places that were expanded, in order. -/
def openings (log : List Moment) : List Pointer :=
  log.filterMap fun moment => moment.event.opening?

/-- What the event says was returned, with the place it was returned for. -/
def Event.closing? : Event → Option (Pointer × TypeExpr)
  | .closed place type => some (place, type)
  | _ => none

/-- The expansions that returned, in order. -/
def closings (log : List Moment) : List (Pointer × TypeExpr) :=
  log.filterMap fun moment => moment.event.closing?

namespace Watched

/-- After an expansion of the place had returned `type`, a reference to it was answered `answer`,
and `since` are the states from then on. -/
def Repeats (watched : Watched) (place : Pointer) (type answer : TypeExpr) (since : List State) :
    Prop :=
  ∃ before closing between asked after,
    watched.log = before ++ ⟨.closed place type, closing⟩ ::
      (between ++ ⟨.answered place answer, asked⟩ :: after) ∧
    since = asked :: (after.map (·.state) ++ [watched.state])

/-- No target is expanded twice, and what its expansion returned decides how references to it are
answered from then on. -/
structure Orderly (watched : Watched) : Prop where
  /-- What returned is what typing has recorded. -/
  recorded : closings watched.log = watched.state.expanded
  once : (openings watched.log).Nodup
  /-- What returned had been started, and is not started again. -/
  expanded : ∀ before place type closing after,
    watched.log = before ++ ⟨.closed place type, closing⟩ :: after →
    place ∈ openings before ∧ place ∉ openings after
  /-- A place with a composite type is a declaration of its own by the time it is referred to
  again, and is promoted once. -/
  composite : ∀ place type answer since, watched.Repeats place type answer since →
    (∃ t, Occurs t type ∧ IsComposite t) →
    ∃ name, answer = .ref name ∧ ∀ state ∈ since,
      state.names.get? place = some name ∧ (state.promoted.map (·.1)).count place = 1
  /-- Any other type is repeated, unless the place is a declaration meanwhile. -/
  simple : ∀ place type answer since, watched.Repeats place type answer since →
    (∀ t, Occurs t type → ¬IsComposite t) →
    answer = type ∨ ∃ name, answer = .ref name ∧ ∀ state ∈ since,
      state.names.get? place = some name

end Watched

/-! ## What holds throughout -/

/-- What typing adds to the names are the names of promoted places, and no place is promoted
twice. -/
structure Promotes (names : NameTable) (state : State) : Prop where
  entries : state.names.entries = names.entries ++ state.promoted
  nodup : (state.promoted.map (·.1)).Nodup

/-- What an event says of the state at the time. -/
def Event.Holds (names : NameTable) (state : State) : Event → Prop
  | .opened place => state.names.get? place = none
  | .closed place type => names.get? place = none ∧ state.expanded.lookup place = some type
  | .answered place type =>
    (∃ name, state.names.get? place = some name ∧ type = .ref name) ∨
      state.expanded.lookup place = some type ∧ type.isSimple = true

/-- What holds of log and state, when the given names were there at the start. -/
structure Told (names : NameTable) (watched : Watched) : Prop where
  promotes : ∀ state ∈ watched.states, Promotes names state
  grows : watched.states.Pairwise State.Grows
  holds : ∀ moment ∈ watched.log, moment.event.Holds names moment.state
  once : (openings watched.log).Nodup
  opened : ∀ before place type closing after,
    watched.log = before ++ ⟨.closed place type, closing⟩ :: after → place ∈ openings before

section
variable {names : NameTable} {state : State}

theorem promotes_start (names : NameTable) : Promotes names { names } := by
  constructor <;> simp

/-- A place that had no name at the start has been promoted once when it has one. -/
theorem Promotes.count_eq_one (promotes : Promotes names state) {place : Pointer} {name : String}
    (unnamed : names.get? place = none) (named : state.names.get? place = some name) :
    (state.promoted.map (·.1)).count place = 1 := by
  apply List.count_eq_one_of_mem promotes.nodup
  have entry := NameTable.mem_of_get? named
  rw [promotes.entries] at entry
  rcases List.mem_append.1 entry with first | later
  · exact absurd (List.mem_map_of_mem (f := (·.1)) first) (NameTable.get?_eq_none_iff.1 unnamed)
  · exact List.mem_map_of_mem (f := (·.1)) later

theorem Promotes.unnamed (promotes : Promotes names state) {place : Pointer}
    (unnamed : state.names.get? place = none) :
    names.get? place = none ∧ place ∉ state.promoted.map (·.1) := by
  simpa [NameTable.get?_eq_none_iff, promotes.entries, not_or] using unnamed

/-- Promoting a place that has no name. -/
theorem Promotes.promote (promotes : Promotes names state) {place : Pointer} (base : String)
    (unnamed : state.names.get? place = none) :
    Promotes names { state with
      names := state.names.extended place base
      promoted := state.promoted ++ [(place, state.names.freshName place base)] } where
  entries := by simp [NameTable.extended, promotes.entries]
  nodup := by
    rw [List.map_append, List.nodup_append]
    refine ⟨promotes.nodup, by simp, ?_⟩
    intro other promoted new last same
    rw [same, List.mem_singleton.1 last] at promoted
    exact (promotes.unnamed unnamed).2 promoted

end

/-! ### Ways to go on -/

theorem openings_append (log more : List Moment) :
    openings (log ++ more) = openings log ++ openings more :=
  List.filterMap_append

section
variable {names : NameTable} {watched : Watched}

theorem told_start (names : NameTable) : Told names ⟨{ names }, []⟩ where
  promotes state hm := List.mem_singleton.1 hm ▸ promotes_start names
  grows := List.pairwise_singleton _ _
  holds := by simp
  once := List.nodup_nil
  opened := by simp

namespace Told

theorem last (told : Told names watched) : Promotes names watched.state :=
  told.promotes _ (List.mem_append_right _ (List.mem_singleton_self _))

theorem grows_last (told : Told names watched) : ∀ state ∈ watched.states,
    state.Grows watched.state := by
  intro state hm
  rcases List.mem_append.1 hm with earlier | last
  · exact (List.pairwise_append.1 told.grows).2.2 state earlier _ (List.mem_singleton_self _)
  · exact List.mem_singleton.1 last ▸ .refl _

theorem grown (told : Told names watched) {state : State} (grows : watched.state.Grows state)
    (promotes : Promotes names state) : Told names { watched with state } where
  promotes other hm := by
    rcases List.mem_append.1 hm with earlier | last
    · exact told.promotes other (List.mem_append_left _ earlier)
    · exact List.mem_singleton.1 last ▸ promotes
  grows := by
    refine List.pairwise_append.2 ⟨(List.pairwise_append.1 told.grows).1, by simp, ?_⟩
    intro earlier hm last same
    rw [List.mem_singleton.1 same]
    exact (told.grows_last earlier (List.mem_append_left _ hm)).trans grows
  holds := told.holds
  once := told.once
  opened := told.opened

theorem noted (told : Told names watched) {event : Event}
    (holds : event.Holds names watched.state)
    (fresh : ∀ place, event = .opened place → place ∉ openings watched.log)
    (started : ∀ place type, event = .closed place type → place ∈ openings watched.log) :
    Told names (watched.noted event) := by
  have states : (watched.noted event).states = watched.states ++ [watched.state] := by
    simp [Watched.states, Watched.noted]
  constructor
  · intro state hm
    rw [states] at hm
    rcases List.mem_append.1 hm with earlier | last
    · exact told.promotes state earlier
    · exact List.mem_singleton.1 last ▸ told.last
  · rw [states]
    refine List.pairwise_append.2 ⟨told.grows, by simp, ?_⟩
    intro earlier hm last same
    rw [List.mem_singleton.1 same]
    exact told.grows_last earlier hm
  · intro moment hm
    rcases List.mem_append.1 hm with earlier | last
    · exact told.holds moment earlier
    · exact List.mem_singleton.1 last ▸ holds
  · simp only [Watched.noted, openings_append]
    refine List.nodup_append.2 ⟨told.once, ?_, ?_⟩
    · cases event <;> simp [openings, Event.opening?]
    · intro earlier hm place last same
      cases event with
      | opened new =>
        have last : place = new := by simpa [openings, Event.opening?] using last
        exact fresh new rfl (last ▸ same ▸ hm)
      | closed | answered => simp [openings, Event.opening?] at last
  · intro before place type closing after split
    rcases split_of_append_singleton split with
      ⟨more, -, earlier⟩ | ⟨-, same, rfl⟩
    · exact told.opened before place type closing more earlier
    · simp only [Moment.mk.injEq] at same
      exact started place type same.1.symm

end Told
end

/-! ## Actions that keep the log -/

/-- Every place whose expansion was started is on the path, or its type is recorded. -/
def Held (path : List Pointer) (watched : Watched) : Prop :=
  ∀ place ∈ openings watched.log, place ∈ path ∨ (watched.state.expanded.lookup place).isSome

/-- What an action does, while the places on `path` are being expanded. -/
structure Goes (names : NameTable) (path : List Pointer) (before after : Watched) : Prop where
  told : Told names after
  grows : before.state.Grows after.state
  log : before.log <+: after.log
  /-- What is recorded on the way is what returns. -/
  records : ∃ more, after.state.expanded = before.state.expanded ++ more ∧
    closings after.log = closings before.log ++ more
  unrecorded : ∀ place ∈ path, after.state.expanded.lookup place = before.state.expanded.lookup place

/-- All expansions started on the way have returned. -/
def Returned (before after : Watched) : Prop :=
  ∀ place ∈ openings after.log,
    place ∈ openings before.log ∨ (after.state.expanded.lookup place).isSome

/-- From here, the action with the log ends as the one without it. When there is a result, all
expansions started on the way have returned. -/
def WatchesFrom {α : Type} (names : NameTable) (path : List Pointer) (watched : Watched)
    (logged : WatchedM α) (action : TypingM α) : Prop :=
  ∃ result after, logged.run.run watched = (result, after) ∧
    action.run.run watched.state = (result, after.state) ∧
    Goes names path watched after ∧ ∀ a, result = .ok a → Returned watched after

def Watches {α : Type} (names : NameTable) (path : List Pointer) (logged : WatchedM α)
    (action : TypingM α) : Prop :=
  ∀ watched, Told names watched → Held path watched → WatchesFrom names path watched logged action

section
variable {α β : Type} {names : NameTable} {path : List Pointer} {watched : Watched}

theorem Goes.refl (told : Told names watched) : Goes names path watched watched :=
  ⟨told, .refl _, List.prefix_rfl, ⟨[], by simp⟩, fun _ _ => rfl⟩

theorem Goes.trans {a b c : Watched} (first : Goes names path a b) (rest : Goes names path b c) :
    Goes names path a c where
  told := rest.told
  grows := first.grows.trans rest.grows
  log := first.log.trans rest.log
  records := by
    obtain ⟨some, recorded, returned⟩ := first.records
    obtain ⟨more, recorded', returned'⟩ := rest.records
    refine ⟨some ++ more, ?_, ?_⟩
    · rw [recorded', recorded, List.append_assoc]
    · rw [returned', returned, List.append_assoc]
  unrecorded place hm := (rest.unrecorded place hm).trans (first.unrecorded place hm)

theorem isSome_lookup_of_grows {a b : State} (grows : a.Grows b) {place : Pointer}
    (recorded : (a.expanded.lookup place).isSome) : (b.expanded.lookup place).isSome := by
  obtain ⟨type, found⟩ := Option.isSome_iff_exists.1 recorded
  rw [grows.lookup found]
  rfl

theorem Goes.held {before after : Watched} (goes : Goes names path before after)
    (held : Held path before) (returned : Returned before after) : Held path after := by
  intro place opened
  rcases returned place opened with earlier | recorded
  · exact (held place earlier).imp_right (isSome_lookup_of_grows goes.grows)
  · exact .inr recorded

theorem Returned.refl (watched : Watched) : Returned watched watched :=
  fun _ => .inl

theorem Returned.trans {a b c : Watched} (first : Returned a b) (rest : Returned b c)
    (grows : b.state.Grows c.state) : Returned a c := by
  intro place opened
  rcases rest place opened with earlier | recorded
  · exact (first place earlier).imp_right (isSome_lookup_of_grows grows)
  · exact .inr recorded

theorem Watches.pure (a : α) : Watches names path (Pure.pure a) (Pure.pure a) := by
  intro watched told held
  exact ⟨.ok a, watched, rfl, rfl, .refl told, fun _ _ => .refl watched⟩

theorem WatchesFrom.bind {logged : WatchedM α} {action : TypingM α} {next' : α → WatchedM β}
    {next : α → TypingM β} (held : Held path watched)
    (first : WatchesFrom names path watched logged action)
    (rest : ∀ a, Watches names path (next' a) (next a)) :
    WatchesFrom names path watched (logged >>= next') (action >>= next) := by
  obtain ⟨error | a, after, hl, ha, goes, returned⟩ := first
  · refine ⟨.error error, after, run_bind_of_error hl next', run_bind_of_error ha next, goes, ?_⟩
    rintro b ⟨⟩
  · have returned := returned a rfl
    obtain ⟨result, final, hl', ha', goes', returned'⟩ :=
      rest a after goes.told (goes.held held returned)
    refine ⟨result, final, ?_, ?_, goes.trans goes', ?_⟩
    · rw [run_bind_of_ok hl, hl']
    · rw [run_bind_of_ok ha, ha']
    · intro b hb
      exact returned.trans (returned' b hb) goes'.grows

theorem Watches.bind {logged : WatchedM α} {action : TypingM α} {next' : α → WatchedM β}
    {next : α → TypingM β} (first : Watches names path logged action)
    (rest : ∀ a, Watches names path (next' a) (next a)) :
    Watches names path (logged >>= next') (action >>= next) :=
  fun watched told held => (first watched told held).bind held rest

/-- A step that follows no reference and records nothing. -/
theorem WatchesFrom.ofTyping (told : Told names watched) {action : TypingM α}
    (grows : watched.state.Grows (action.run.run watched.state).2)
    (promotes : Promotes names (action.run.run watched.state).2)
    (recorded : (action.run.run watched.state).2.expanded = watched.state.expanded) :
    WatchesFrom names path watched (Watched.ofTyping action) action := by
  refine ⟨_, _, rfl, rfl, ⟨told.grown grows promotes, grows, List.prefix_rfl, ⟨[], ?_⟩, ?_⟩, ?_⟩
  · exact ⟨recorded.trans (List.append_nil _).symm, (List.append_nil _).symm⟩
  · intro place _
    exact congrArg (List.lookup place) recorded
  · intro a _ place opened
    exact .inl opened

theorem Watches.quiet {action : TypingM α} (quiet : Quiet (fun _ => True) action) :
    Watches names path (Watched.ofTyping action) action := by
  intro watched told held
  obtain ⟨more, -, changed⟩ := quiet watched.state
  apply WatchesFrom.ofTyping told
  · rw [changed]
    exact { State.Grows.refl watched.state with warnings := List.prefix_append _ _ }
  · rw [changed]
    exact ⟨told.last.entries, told.last.nodup⟩
  · rw [changed]

theorem watches_carries (names : NameTable) (path : List Pointer) :
    Lifted.Carries (fun _ => True) Watched.ofTyping (Watches names path) :=
  ⟨fun _ _ => trivial, .pure, .bind, .quiet⟩

/-- What is done while more places are being expanded is done while fewer are. -/
theorem Watches.narrow {logged : WatchedM α} {action : TypingM α}
    (h : Watches names path logged action) : Watches names [] logged action := by
  intro watched told held
  have held' : Held path watched := by
    intro place opened
    exact .inr ((held place opened).resolve_left List.not_mem_nil)
  obtain ⟨result, after, hl, ha, goes, returned⟩ := h watched told held'
  refine ⟨result, after, hl, ha, { goes with unrecorded := ?_ }, returned⟩
  rintro place ⟨⟩

end

/-! ## Following a reference -/

section
variable {names : NameTable} {path : List Pointer} {watched : Watched} {place : Pointer}

theorem run_note (event : Event) (watched : Watched) :
    (Watched.note event).run.run watched = (.ok (), watched.noted event) :=
  rfl

theorem run_ofTyping {α : Type} {action : TypingM α} {after : State} {result : Except CompileError α}
    (h : action.run.run watched.state = (result, after)) :
    (Watched.ofTyping action).run.run watched = (result, { watched with state := after }) := by
  change ((action.run.run watched.state).1, { watched with state := (action.run.run watched.state).2 }) = _
  rw [h]

theorem lookup_closing {type : TypeExpr} (new : watched.state.expanded.lookup place = none) :
    (watched.closing place type).state.expanded.lookup place = some type := by
  simp [Watched.closing, Watched.noted, List.lookup_append, new]

theorem openings_closing (watched : Watched) (place : Pointer) (type : TypeExpr) :
    openings (watched.closing place type).log = openings watched.log := by
  simp [Watched.closing, Watched.noted, openings, Event.opening?]

/-- A reference answered with what the event says. -/
theorem answer_watches (told : Told names watched) {action : TypingM TypeExpr} {type : TypeExpr}
    {after : State} (h : action.run.run watched.state = (.ok type, after))
    (grows : watched.state.Grows after) (promotes : Promotes names after)
    (recorded : after.expanded = watched.state.expanded)
    (holds : (Event.answered place type).Holds names after) :
    WatchesFrom names path watched (Watched.answer place action) action := by
  have grown := told.grown grows promotes
  refine ⟨.ok type, Watched.noted { watched with state := after } (.answered place type), ?_, h,
    ⟨grown.noted holds ?_ ?_, grows, List.prefix_append _ _, ⟨[], ?_⟩, ?_⟩, ?_⟩
  · unfold Watched.answer
    rw [run_bind_of_ok (run_ofTyping h), run_bind_of_ok (run_note _ _)]
    rfl
  · rintro place ⟨⟩
  · rintro place type ⟨⟩
  · simp [Watched.noted, recorded, closings, Event.closing?]
  · intro place _
    exact congrArg (List.lookup place) recorded
  · intro a _ place opened
    simp only [Watched.noted, openings_append] at opened
    exact .inl ((List.mem_append.1 opened).resolve_right (by simp [openings, Event.opening?]))

/-- A reference answered with what is there. -/
theorem answer_pure_watches (told : Told names watched) {type : TypeExpr}
    (holds : (Event.answered place type).Holds names watched.state) :
    WatchesFrom names path watched (Watched.answer place (pure type)) (pure type) :=
  answer_watches told rfl (.refl _) told.last rfl holds

/-- A reference answered with the name of its target, which is promoted for it. -/
theorem answer_promoted_watches {index : Index} (told : Told names watched) (target : index.Target)
    (unnamed : watched.state.names.get? target.pointer = none) :
    WatchesFrom names path watched
      (Watched.answer target.pointer (do return .ref (← promote target.pointer)))
      (do return .ref (← promote target.pointer)) := by
  have promoted := run_promote target.pointer watched.state
  rw [NameTable.assign_of_none _ unnamed] at promoted
  apply answer_watches told (run_bind_of_ok promoted _)
  · exact watched.state.grows_promote _ _ _
  · exact told.last.promote _ unnamed
  · rfl
  · exact .inl ⟨_, NameTable.get?_extended _ unnamed, rfl⟩

/-- The log when the expansion of a place starts that was not expanded before. -/
theorem Goes.opening (told : Told names watched) (unnamed : watched.state.names.get? place = none)
    (fresh : place ∉ openings watched.log) :
    Goes names path watched (watched.noted (.opened place)) where
  told := by
    have holds : (Event.opened place).Holds names watched.state := unnamed
    apply told.noted holds
    · rintro other ⟨⟩
      exact fresh
    · rintro other type ⟨⟩
  grows := .refl _
  log := List.prefix_append _ _
  records := ⟨[], by simp [Watched.noted, closings, Event.closing?]⟩
  unrecorded _ _ := rfl

/-- The log when an expansion returns, with its type recorded. -/
theorem Goes.closing (told : Told names watched) {type : TypeExpr}
    (unnamed : names.get? place = none) (outside : place ∉ path)
    (new : watched.state.expanded.lookup place = none) (started : place ∈ openings watched.log) :
    Goes names path watched (watched.closing place type) := by
  have grows : watched.state.Grows (watched.closing place type).state :=
    watched.state.grows_record place type
  refine ⟨?_, grows, List.prefix_append _ _, ⟨[(place, type)], rfl, ?_⟩, ?_⟩
  · have recorded := told.grown grows ⟨told.last.entries, told.last.nodup⟩
    have holds : (Event.closed place type).Holds names (watched.closing place type).state :=
      ⟨unnamed, lookup_closing new⟩
    apply recorded.noted holds
    · rintro other ⟨⟩
    · rintro other type ⟨⟩
      exact started
  · simp [Watched.closing, Watched.noted, closings, Event.closing?]
  · intro other on
    have different : (other == place) = false := beq_false_of_ne fun same => outside (same ▸ on)
    simp [Watched.closing, Watched.noted, List.lookup_append, List.lookup_cons, different]

theorem Goes.narrow {more : List Pointer} {before after : Watched}
    (goes : Goes names (path ++ more) before after) : Goes names path before after :=
  { goes with unrecorded := fun other on => goes.unrecorded other (List.mem_append_left _ on) }

/-- A reference answered by expanding its target. The target was not expanded before: it is not on
the path, and its type is not recorded. And no other expansion of it is recorded meanwhile, as it is
on the path. -/
theorem expand_watches {logged : WatchedM TypeExpr} {action : TypingM TypeExpr}
    (told : Told names watched) (held : Held path watched)
    (unnamed : watched.state.names.get? place = none) (outside : place ∉ path)
    (new : watched.state.expanded.lookup place = none)
    (inner : Watches names (path ++ [place]) logged action) :
    WatchesFrom names path watched (Watched.expand place logged)
      (do let type ← action; recordExpansion place type; return type) := by
  have fresh : place ∉ openings watched.log := by
    intro opened
    rcases held place opened with on | recorded
    · exact outside on
    · simp [new] at recorded
  have opening : Goes names path watched (watched.noted (.opened place)) :=
    .opening told unnamed fresh
  have opened : openings (watched.noted (.opened place)).log = openings watched.log ++ [place] :=
    openings_append _ _
  have held' : Held (path ++ [place]) (watched.noted (.opened place)) := by
    intro other hm
    rw [opened] at hm
    rcases List.mem_append.1 hm with earlier | last
    · exact (held other earlier).imp_left (List.mem_append_left _)
    · exact .inl (List.mem_append_right _ last)
  obtain ⟨result, after, hl, ha, goes, returned⟩ := inner _ opening.told held'
  have ha : action.run.run watched.state = (result, after.state) := ha
  cases result with
  | error error =>
    refine ⟨.error error, after, ?_, run_bind_of_error ha _, opening.trans goes.narrow, ?_⟩
    · unfold Watched.expand
      rw [run_bind_of_ok (run_note _ _), run_bind_of_error hl]
    · rintro type ⟨⟩
  | ok type =>
    have still : after.state.expanded.lookup place = none := by
      rw [goes.unrecorded place (List.mem_append_right _ (List.mem_singleton_self _))]
      exact new
    have started : place ∈ openings after.log := by
      apply (goes.log.filterMap _).subset
      change place ∈ openings _
      simp [opened]
    have closing : Goes names path after (after.closing place type) :=
      .closing goes.told (told.last.unnamed unnamed).1 outside still started
    refine ⟨.ok type, after.closing place type, ?_, ?_,
      (opening.trans goes.narrow).trans closing, ?_⟩
    · unfold Watched.expand
      rw [run_bind_of_ok (run_note _ _), run_bind_of_ok hl]
      rfl
    · rw [run_bind_of_ok ha]
      rfl
    · intro _ _ other hm
      rw [openings_closing] at hm
      rcases returned type rfl other hm with earlier | recorded
      · rw [opened] at earlier
        rcases List.mem_append.1 earlier with earlier | last
        · exact .inl earlier
        · rw [List.mem_singleton.1 last, lookup_closing still]
          exact .inr rfl
      · exact .inr (isSome_lookup_of_grows closing.grows recorded)

end

/-- Following a reference. -/
theorem typeOfReference_watches (index : Index) (names : NameTable) (path : List Pointer)
    (reference : String) (place : Pointer) :
    Watches names path (Watched.typeOfReference index path reference place)
      (typeOfReference index path reference place) := by
  intro watched told held
  rw [Watched.typeOfReference, typeOfReference]
  cases index.resolve reference place with
  | error error => exact ⟨.error error, watched, rfl, rfl, .refl told, by rintro a ⟨⟩⟩
  | ok target =>
    have read : (Watched.ofTyping MonadState.get).run.run watched = (.ok watched.state, watched) := rfl
    dsimp only
    unfold WatchesFrom
    rw [run_bind_of_ok read, run_get]
    rw [← WatchesFrom]
    cases hn : watched.state.names.get? target.pointer with
    | some name => exact answer_pure_watches told (.inl ⟨name, hn, rfl⟩)
    | none =>
      dsimp only
      split
      · exact answer_promoted_watches told target hn
      · rename_i outside
        have outside : target.pointer ∉ path := by simpa [Index.Target.isCycle] using outside
        cases hx : watched.state.expanded.lookup target.pointer with
        | some type =>
          dsimp only
          split
          · rename_i short
            exact answer_pure_watches told (.inr ⟨hx, short⟩)
          · exact answer_promoted_watches told target hn
        | none =>
          have smaller := Index.unvisited_lt target.found outside
          apply expand_watches told held hn outside hx
          apply (watches_carries names _).typeOfNode
          exact typeOfReference_watches index names (path ++ [target.pointer])
termination_by index.unvisited path

theorem typeAt_watches (index : Index) (names : NameTable) (path : List Pointer) (node : Json)
    (place : Pointer) :
    Watches names path (Watched.typeAt index path node place) (typeAt index path node place) :=
  (watches_carries names path).typeOfNode (typeOfReference_watches index names path) node place

theorem call_watches (index : Index) (names : NameTable) (call : Call) :
    Watches names [] (call.watched index) (call.action index) := by
  cases call with
  | root node place => exact (typeAt_watches index names [place] node place).narrow
  | schema node place path => exact (typeAt_watches index names path node place).narrow
  | reference written place path =>
    exact (typeOfReference_watches index names path written place).narrow

/-! ## The log afterwards -/

section
variable {names : NameTable} {watched : Watched}

/-- A reference that is answered after the expansion of its target returned. -/
theorem Told.repeats (told : Told names watched) {place : Pointer} {type answer : TypeExpr}
    {since : List State} (h : watched.Repeats place type answer since) :
    (∃ name, answer = .ref name ∧ ∀ state ∈ since,
      state.names.get? place = some name ∧ (state.promoted.map (·.1)).count place = 1) ∨
    answer = type ∧ type.isSimple = true := by
  obtain ⟨before, closing, between, asked, after, log, rfl⟩ := h
  have states : watched.states = before.map (·.state) ++ closing :: (between.map (·.state) ++
      asked :: (after.map (·.state) ++ [watched.state])) := by
    simp [Watched.states, log]
  have grows := told.grows
  rw [states, List.pairwise_append, List.pairwise_cons] at grows
  have ⟨from_closing, later⟩ := grows.2.1
  have from_asked := (List.pairwise_append.1 later).2.1
  have closed : (Event.closed place type).Holds names closing :=
    told.holds ⟨.closed place type, closing⟩ (by simp [log])
  have answered : (Event.answered place answer).Holds names asked :=
    told.holds ⟨.answered place answer, asked⟩ (by simp [log])
  rcases answered with ⟨name, named, rfl⟩ | ⟨found, simple⟩
  · refine .inl ⟨name, rfl, fun state hm => ?_⟩
    have named : state.names.get? place = some name := by
      rcases List.mem_cons.1 hm with rfl | hm
      · exact named
      · exact NameTable.get?_mono ((List.pairwise_cons.1 from_asked).1 state hm).names named
    have promotes : Promotes names state := by
      apply told.promotes
      rw [states]
      simp only [List.mem_append, List.mem_cons] at hm ⊢
      tauto
    exact ⟨named, promotes.count_eq_one closed.1 named⟩
  · -- the type found is the one that the expansion returned
    have still := (from_closing asked (by simp)).lookup closed.2
    rw [still] at found
    cases found
    exact .inr ⟨rfl, simple⟩

theorem Told.orderly (told : Told names watched)
    (recorded : closings watched.log = watched.state.expanded) : watched.Orderly where
  recorded := recorded
  once := told.once
  expanded before place type closing after log := by
    have started := told.opened before place type closing after log
    have once := told.once
    rw [log, openings_append] at once
    refine ⟨started, fun again => (List.nodup_append.1 once).2.2 place started place ?_ rfl⟩
    exact again
  composite place type answer since h composite := by
    rcases told.repeats h with named | ⟨-, simple⟩
    · exact named
    · obtain ⟨t, occurs, is⟩ := composite
      exact absurd is (isSimple_iff type |>.1 simple t occurs)
  simple place type answer since h _ := by
    rcases told.repeats h with ⟨name, same, named⟩ | ⟨same, -⟩
    · exact .inr ⟨name, same, fun state hm => (named state hm).1⟩
    · exact .inl same

/-- Whatever keeps the log from the start. -/
theorem Watches.orderly {α : Type} {logged : WatchedM α} {action : TypingM α}
    (h : Watches names [] logged action) :
    ∃ result watched, logged.run.run ⟨{ names }, []⟩ = (result, watched) ∧
      action.run.run { names } = (result, watched.state) ∧ watched.Orderly := by
  obtain ⟨result, watched, hl, ha, goes, -⟩ :=
    h ⟨{ names }, []⟩ (told_start names) (by simp [Held, openings])
  obtain ⟨more, recorded, returned⟩ := goes.records
  exact ⟨result, watched, hl, ha, goes.told.orderly (returned.trans recorded.symm)⟩

end

end Typing

end ApiTypes
