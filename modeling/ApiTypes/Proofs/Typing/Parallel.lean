import ApiTypes.Proofs.Typing.Run
import ApiTypes.Proofs.TypeExpr.Renamed

/-!
# Typing in two documents

The same schemas stand in two documents, at the root of the bare one and under the place `above` in
the full one. `Parallel` says that the states of typing in the two correspond, and `Lockstep` that
two actions keep them so and have results that correspond, or fail alike.

Names are made from whole places, so those given in the two documents need not be the same. They are
related by the places they are given to (`Renames`), and two names never to the same
(`renames_unique`).
-/

namespace ApiTypes

/-! ## Places -/

/-- The place under `above`. -/
def Pointer.under (above place : Pointer) : Pointer :=
  ⟨above.segments ++ place.segments⟩

theorem Pointer.under_injective (above : Pointer) : Function.Injective above.under := by
  intro p q h
  cases p
  cases q
  exact congrArg Pointer.mk (List.append_cancel_left (congrArg Pointer.segments h))

theorem Pointer.under_child (above place : Pointer) (segment : String) :
    above.under (place.child segment) = (above.under place).child segment := by
  simp [under, child]

theorem Pointer.under_element (above place : Pointer) (number : Nat) :
    above.under (place.element number) = (above.under place).element number :=
  under_child above place (toString number)

theorem Pointer.last?_under (above : Pointer) {place : Pointer} (h : place ≠ .root) :
    (above.under place).last? = place.last? := by
  obtain ⟨segments⟩ := place
  cases segments with
  | nil => exact absurd rfl h
  | cons first rest =>
    simp only [under, last?, List.getLast?_append]
    rw [List.getLast?_cons, Option.some_or]

/-- The warning about the place under `above`. -/
def Warning.under (above : Pointer) (warning : Warning) : Warning :=
  { warning with pointer := warning.pointer.map above.under }

namespace Typing

open Relator TypeExpr

/-- Entries of places that correspond. -/
def Moved {α β : Type} (above : Pointer) (R : α → β → Prop) (a : Pointer × α) (b : Pointer × β) :
    Prop :=
  b.1 = above.under a.1 ∧ R a.2 b.2

theorem lookup_moved {α β : Type} {above : Pointer} {R : α → β → Prop}
    {as : List (Pointer × α)} {bs : List (Pointer × β)} (h : List.Forall₂ (Moved above R) as bs)
    (place : Pointer) : Option.Rel R (as.lookup place) (bs.lookup (above.under place)) := by
  induction h with
  | nil => exact .none
  | @cons a b as bs first _ ih =>
    obtain ⟨p, a⟩ := a
    obtain ⟨q, b⟩ := b
    obtain ⟨rfl, hr⟩ : q = above.under p ∧ R a b := first
    by_cases same : place = p
    · subst same
      simpa using Option.Rel.some hr
    · have other : above.under place ≠ above.under p := fun e => same (above.under_injective e)
      rw [List.lookup_cons, List.lookup_cons, beq_false_of_ne same, beq_false_of_ne other]
      exact ih

/-! ## Names -/

/-- The names that two tables give to corresponding places. -/
def Renames (above : Pointer) (bare full : NameTable) (name name' : String) : Prop :=
  ∃ place, bare.get? place = some name ∧ full.get? (above.under place) = some name'

/-- Tables that name corresponding places, in the same order. -/
structure TablesParallel (above : Pointer) (bare full : NameTable) : Prop where
  bareValid : bare.Valid
  fullValid : full.Valid
  places : List.Forall₂ (Moved above fun _ _ => True) bare.entries full.entries

section
variable {above : Pointer} {bare full : NameTable}

theorem renames_unique (h : TablesParallel above bare full) :
    BiUnique (Renames above bare full) := by
  constructor
  · rintro a b c ⟨p, ha, hc⟩ ⟨q, hb, hc'⟩
    have same := above.under_injective (h.fullValid.place_unique hc hc')
    rw [same, hb] at ha
    exact (Option.some.inj ha).symm
  · rintro a b c ⟨p, ha, hb⟩ ⟨q, ha', hc⟩
    have same := h.bareValid.place_unique ha ha'
    rw [same, hc] at hb
    exact (Option.some.inj hb).symm

theorem renames_mono {bare' full' : NameTable} (hb : bare.entries <+: bare'.entries)
    (hf : full.entries <+: full'.entries) :
    Subrelation (Renames above bare full) (Renames above bare' full') := by
  rintro name name' ⟨place, hn, hn'⟩
  exact ⟨place, NameTable.get?_mono hb hn, NameTable.get?_mono hf hn'⟩

theorem tablesParallel_empty : TablesParallel above {} {} :=
  ⟨NameTable.valid_empty, NameTable.valid_empty, .nil⟩

theorem TablesParallel.get? (h : TablesParallel above bare full) (place : Pointer) :
    (bare.get? place = none ∧ full.get? (above.under place) = none) ∨
    ∃ name name', bare.get? place = some name ∧ full.get? (above.under place) = some name' := by
  have found := lookup_moved h.places place
  unfold NameTable.get?
  cases hb : bare.entries.lookup place with
  | none =>
    cases hf : full.entries.lookup (above.under place) with
    | none => exact .inl ⟨rfl, rfl⟩
    | some name' =>
      rw [hb, hf] at found
      cases found
  | some name =>
    cases hf : full.entries.lookup (above.under place) with
    | none =>
      rw [hb, hf] at found
      cases found
    | some name' => exact .inr ⟨name, name', rfl, rfl⟩

/-- Naming corresponding places: the tables go on naming corresponding places, and take nothing
back. -/
theorem TablesParallel.assign (h : TablesParallel above bare full) (place : Pointer)
    (base : String) :
    TablesParallel above (bare.assign place base).2 (full.assign (above.under place) base).2 ∧
    Subrelation (Renames above bare full)
      (Renames above (bare.assign place base).2 (full.assign (above.under place) base).2) ∧
    Renames above (bare.assign place base).2 (full.assign (above.under place) base).2
      (bare.assign place base).1 (full.assign (above.under place) base).1 := by
  rcases h.get? place with ⟨unnamed, unnamed'⟩ | ⟨name, name', named, named'⟩
  · rw [NameTable.assign_of_none base unnamed, NameTable.assign_of_none base unnamed']
    refine ⟨⟨h.bareValid.extended base unnamed, h.fullValid.extended base unnamed', ?places⟩, ?kept, ?given⟩
    case places => exact List.rel_append h.places (.cons ⟨rfl, trivial⟩ .nil)
    case kept => exact renames_mono (List.prefix_append _ _) (List.prefix_append _ _)
    case given =>
      refine ⟨place, ?_, ?_⟩
      · simp [NameTable.extended, NameTable.get?_append, unnamed]
      · simp [NameTable.extended, NameTable.get?_append, unnamed']
  · rw [NameTable.assign_of_some base named, NameTable.assign_of_some base named']
    exact ⟨h, id, place, named, named'⟩

end

/-! ## States -/

/-- The states of typing in the bare document and in the full one. -/
structure Parallel (above : Pointer) (bare full : State) : Prop where
  names : TablesParallel above bare.names full.names
  promoted : List.Forall₂ (Moved above (Renames above bare.names full.names))
    bare.promoted full.promoted
  warnings : full.warnings = bare.warnings.map (Warning.under above)
  expanded : List.Forall₂ (Moved above (Renamed (Renames above bare.names full.names)))
    bare.expanded full.expanded

theorem parallel_start {above : Pointer} {names names' : NameTable}
    (h : TablesParallel above names names') : Parallel above { names } { names := names' } :=
  ⟨h, .nil, rfl, .nil⟩

/-- What corresponds goes on to do so when both tables get further names. -/
theorem Parallel.withNames {above : Pointer} {bare full : State} (h : Parallel above bare full)
    {names names' : NameTable} (tables : TablesParallel above names names')
    (more : Subrelation (Renames above bare.names full.names) (Renames above names names')) :
    Parallel above { bare with names } { full with names := names' } where
  names := tables
  promoted := h.promoted.imp fun _ _ moved => ⟨moved.1, more moved.2⟩
  warnings := h.warnings
  expanded := h.expanded.imp fun _ _ moved => ⟨moved.1, moved.2.mono more⟩

/-- Both fail on one reference, written at corresponding places. -/
def FailAlike (above : Pointer) (a b : CompileError) : Prop :=
  ∃ reference place, a = .unresolvedReference reference place ∧
    b = .unresolvedReference reference (above.under place)

/-! ## Sequencing -/

section
variable {α β γ δ : Type} {above : Pointer} {bare full : State}

/-- From the two states, both actions have results, in states that correspond and in which related
names are still related, or they fail alike. `post` holds of the results and of any relation that
takes in the names related then. -/
def LockstepFrom (above : Pointer) (bare full : State) (first : TypingM α) (second : TypingM β)
    (post : (String → String → Prop) → α → β → Prop) : Prop :=
  match first.run.run bare, second.run.run full with
  | (.ok a, bare'), (.ok b, full') =>
    Parallel above bare' full' ∧
    Subrelation (Renames above bare.names full.names) (Renames above bare'.names full'.names) ∧
    ∀ R, BiUnique R → Subrelation (Renames above bare'.names full'.names) R → post R a b
  | (.error e, _), (.error e', _) => FailAlike above e e'
  | _, _ => False

/-- Two actions, from all states that correspond. -/
def Lockstep (above : Pointer) (first : TypingM α) (second : TypingM β)
    (post : (String → String → Prop) → α → β → Prop) : Prop :=
  ∀ bare full, Parallel above bare full → LockstepFrom above bare full first second post

theorem LockstepFrom.cases {first : TypingM α} {second : TypingM β}
    {post : (String → String → Prop) → α → β → Prop}
    (h : LockstepFrom above bare full first second post) :
    (∃ a b bare' full', first.run.run bare = (.ok a, bare') ∧
      second.run.run full = (.ok b, full') ∧ Parallel above bare' full' ∧
      Subrelation (Renames above bare.names full.names) (Renames above bare'.names full'.names) ∧
      ∀ R, BiUnique R → Subrelation (Renames above bare'.names full'.names) R → post R a b) ∨
    ∃ e e' bare' full', first.run.run bare = (.error e, bare') ∧
      second.run.run full = (.error e', full') ∧ FailAlike above e e' := by
  unfold LockstepFrom at h
  rcases ha : first.run.run bare with ⟨e | a, bare'⟩ <;>
    rcases hb : second.run.run full with ⟨e' | b, full'⟩ <;> simp only [ha, hb] at h
  · exact .inr ⟨e, e', bare', full', rfl, rfl, h⟩
  · exact .inl ⟨a, b, bare', full', rfl, rfl, h⟩

/-- The later actions start from states that correspond, with what holds there of the results. -/
theorem LockstepFrom.bind {first : TypingM α} {second : TypingM β}
    {next : α → TypingM γ} {next' : β → TypingM δ}
    {mid : (String → String → Prop) → α → β → Prop}
    {post : (String → String → Prop) → γ → δ → Prop}
    (h : LockstepFrom above bare full first second mid)
    (hn : ∀ a b bare' full', Parallel above bare' full' →
      Subrelation (Renames above bare.names full.names) (Renames above bare'.names full'.names) →
      mid (Renames above bare'.names full'.names) a b →
      LockstepFrom above bare' full' (next a) (next' b) fun R c d => mid R a b → post R c d) :
    LockstepFrom above bare full (first >>= next) (second >>= next') post := by
  unfold LockstepFrom
  rcases h.cases with ⟨a, b, bare', full', ha, hb, parallel, kept, holds⟩ |
    ⟨e, e', bare', full', ha, hb, alike⟩
  · rw [run_bind_of_ok ha, run_bind_of_ok hb]
    have now := holds _ (renames_unique parallel.names) id
    rcases (hn a b bare' full' parallel kept now).cases with
      ⟨c, d, bare'', full'', hc, hd, parallel', kept', holds'⟩ |
      ⟨e, e', bare'', full'', hc, hd, alike⟩
    · rw [hc, hd]
      refine ⟨parallel', fun h => kept' (kept h), fun R unique more => ?_⟩
      exact holds' R unique more (holds R unique fun h => more (kept' h))
    · rw [hc, hd]
      exact alike
  · rw [run_bind_of_error ha, run_bind_of_error hb]
    exact alike

theorem LockstepFrom.pure {a : α} {b : β} {post : (String → String → Prop) → α → β → Prop}
    (parallel : Parallel above bare full)
    (h : ∀ R, BiUnique R → Subrelation (Renames above bare.names full.names) R → post R a b) :
    LockstepFrom above bare full (Pure.pure a) (Pure.pure b) post :=
  ⟨parallel, id, h⟩

/-- An action that starts by reading the state goes on from that state. -/
theorem LockstepFrom.get {next : State → TypingM α} {next' : State → TypingM β}
    {post : (String → String → Prop) → α → β → Prop}
    (h : LockstepFrom above bare full (next bare) (next' full) post) :
    LockstepFrom above bare full (MonadState.get >>= next) (MonadState.get >>= next') post :=
  h

theorem Lockstep.bind {first : TypingM α} {second : TypingM β}
    {next : α → TypingM γ} {next' : β → TypingM δ}
    {mid : (String → String → Prop) → α → β → Prop}
    {post : (String → String → Prop) → γ → δ → Prop} (h : Lockstep above first second mid)
    (hn : ∀ a b, Lockstep above (next a) (next' b) fun R c d => mid R a b → post R c d) :
    Lockstep above (first >>= next) (second >>= next') post :=
  fun bare full parallel => (h bare full parallel).bind
    fun a b bare' full' parallel' _ _ => hn a b bare' full' parallel'

theorem Lockstep.pure {a : α} {b : β} {post : (String → String → Prop) → α → β → Prop}
    (h : ∀ R, BiUnique R → post R a b) :
    Lockstep above (Pure.pure a) (Pure.pure b) post :=
  fun _ _ parallel => .pure parallel fun R unique _ => h R unique

theorem Lockstep.imp {first : TypingM α} {second : TypingM β}
    {post post' : (String → String → Prop) → α → β → Prop} (h : Lockstep above first second post)
    (hp : ∀ R a b, BiUnique R → post R a b → post' R a b) :
    Lockstep above first second post' := by
  intro bare full parallel
  unfold LockstepFrom
  rcases (h bare full parallel).cases with ⟨a, b, bare', full', ha, hb, parallel', kept, holds⟩ |
    ⟨e, e', bare', full', ha, hb, alike⟩
  · rw [ha, hb]
    exact ⟨parallel', kept, fun R unique more => hp R a b unique (holds R unique more)⟩
  · rw [ha, hb]
    exact alike

theorem Lockstep.map {first : TypingM α} {second : TypingM β} {f : α → γ} {g : β → δ}
    {post : (String → String → Prop) → γ → δ → Prop}
    (h : Lockstep above first second fun R a b => post R (f a) (g b)) :
    Lockstep above (f <$> first) (g <$> second) post := by
  rw [map_eq_pure_bind, map_eq_pure_bind]
  exact h.bind fun _ _ => .pure fun _ _ hp => hp

end

/-! ## Changes of the state -/

section
variable {above : Pointer}

theorem warn_lockstep (kind : WarningKind) (place : Pointer) (message : String) :
    Lockstep above (warn kind place message) (warn kind (above.under place) message)
      fun _ _ _ => True := by
  intro bare full parallel
  refine ⟨{ parallel with warnings := ?_ }, id, fun _ _ _ => trivial⟩
  simp [parallel.warnings, Warning.under]

theorem unsupported_lockstep (place : Pointer) (reason : String) :
    Lockstep above (unsupported place reason) (unsupported (above.under place) reason) Renamed :=
  (warn_lockstep _ place reason).bind fun _ _ => .pure fun _ _ _ => .unknown _

theorem ambiguous_lockstep (place : Pointer) (reason : String) :
    Lockstep above (ambiguous place reason) (ambiguous (above.under place) reason) Renamed :=
  (warn_lockstep _ place reason).bind fun _ _ => .pure fun _ _ _ => .unknown _

theorem promote_lockstep {place : Pointer} (inside : place ≠ .root) :
    Lockstep above (promote place) (promote (above.under place)) fun R name name' => R name name' := by
  intro bare full parallel
  unfold LockstepFrom
  rw [run_promote, run_promote, above.last?_under inside]
  obtain ⟨tables, kept, given⟩ := parallel.names.assign place (place.last?.getD "Schema")
  have parallel' := parallel.withNames tables kept
  refine ⟨{ parallel' with promoted := ?_ }, kept, fun R _ more => more given⟩
  exact List.rel_append parallel'.promoted (.cons ⟨rfl, given⟩ .nil)

theorem refToPromoted_lockstep {place : Pointer} (inside : place ≠ .root) :
    Lockstep above (do return .ref (← promote place))
      (do return .ref (← promote (above.under place))) Renamed :=
  (promote_lockstep inside).bind fun _ _ => .pure fun _ _ hn => .ref hn

theorem recordExpansion_lockstepFrom {bare full : State} (h : Parallel above bare full)
    (place : Pointer) {type type' : TypeExpr}
    (renamed : Renamed (Renames above bare.names full.names) type type') :
    LockstepFrom above bare full (recordExpansion place type)
      (recordExpansion (above.under place) type') fun _ _ _ => True := by
  refine ⟨{ h with expanded := ?_ }, id, fun _ _ _ => trivial⟩
  exact List.rel_append h.expanded (.cons ⟨rfl, renamed⟩ .nil)

end

end Typing

end ApiTypes
