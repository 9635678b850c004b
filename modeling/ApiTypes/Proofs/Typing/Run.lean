import ApiTypes.Proofs.Typing.Result
import ApiTypes.Proofs.Typing.Standing
import Mathlib.Logic.Relation

/-!
# Runs of typing

Typing changes its state in three ways only: it raises a warning, promotes a place, or records
the type of an expanded target. `Step` says when it may, and `Run` is any number of steps.

* `typeAt_yields`, `typeOfReference_yields`: typing runs by such steps, its result is one that
  the shape of the schema allows (`NodeTyped`), and it fails only on a broken reference;
* `Yields`: what is said about an action, closed under sequencing (`Yields.bind`), so that each
  part of typing has one lemma;
* `Run.grows`: along a run nothing is taken back.
-/

namespace ApiTypes

namespace Typing

open Schema

/-- The name that a place gets when it is promoted. -/
def State.promotedName (state : State) (place : Pointer) : String :=
  state.names.freshName place (place.last?.getD "Schema")

/-- One change of the state, while the places on `path` are being expanded. -/
inductive Step (index : Index) (path : List Pointer) : State → State → Prop
  | warn {state : State} (kind : WarningKind) (place : Pointer) (message : String)
      (stands : (index.get? place).isSome) :
      Step index path state
        { state with warnings := state.warnings ++ [⟨kind, some place, message⟩] }
  | promote {state : State} (target : index.Target)
      (unnamed : state.names.get? target.pointer = none) :
      Step index path state { state with
        names := state.names.extended target.pointer (target.pointer.last?.getD "Schema")
        promoted := state.promoted ++ [(target.pointer, state.promotedName target.pointer)] }
  | record {state : State} (target : index.Target) (type : TypeExpr)
      (outside : target.pointer ∉ path) (new : state.expanded.lookup target.pointer = none)
      (typed : NodeTyped index state target.node target.pointer type) :
      Step index path state { state with expanded := state.expanded ++ [(target.pointer, type)] }

abbrev Run (index : Index) (path : List Pointer) : State → State → Prop :=
  Relation.ReflTransGen (Step index path)

theorem Step.grows {index : Index} {path : List Pointer} {a b : State} (h : Step index path a b) :
    a.Grows b := by
  cases h with
  | warn => exact a.grows_warn _
  | promote => exact a.grows_promote _ _ _
  | record => exact a.grows_record _ _

theorem Run.grows {index : Index} {path : List Pointer} {a b : State} (h : Run index path a b) :
    a.Grows b := by
  induction h with
  | refl => exact .refl a
  | tail _ step ih => exact ih.trans step.grows

/-- What may be done while more places are being expanded may be done while fewer are. -/
theorem Run.narrow {index : Index} {path more : List Pointer} {a b : State}
    (h : Run index (path ++ more) a b) : Run index path a b := by
  refine Relation.ReflTransGen.mono (fun s t step => ?_) _ _ h
  cases step with
  | warn kind place message stands => exact .warn kind place message stands
  | promote target unnamed => exact .promote target unnamed
  | record target type outside new typed =>
    exact .record target type (fun hm => outside (List.mem_append_left _ hm)) new typed

/-- A place being expanded is not recorded meanwhile. -/
theorem Run.lookup_expanded {index : Index} {path : List Pointer} {a b : State}
    (h : Run index path a b) {place : Pointer} (hm : place ∈ path) :
    b.expanded.lookup place = a.expanded.lookup place := by
  induction h with
  | refl => rfl
  | tail _ step ih =>
    rw [← ih]
    cases step with
    | warn | promote => rfl
    | record target type outside new typed =>
      have hne : place ≠ target.pointer := fun e => outside (e ▸ hm)
      rw [List.lookup_append, List.lookup_cons, show (place == target.pointer) = false by simpa using hne]
      simp

/-! ## Sequencing -/

section
variable {σ ε α β : Type} {state after : σ} {action : ExceptT ε (StateM σ) α}

theorem run_bind_of_ok {a : α} (h : action.run.run state = (.ok a, after))
    (next : α → ExceptT ε (StateM σ) β) :
    (action >>= next).run.run state = (next a).run.run after := by
  simp only [ExceptT.run_bind, StateT.run_bind, h]
  rfl

theorem run_bind_of_error {error : ε} (h : action.run.run state = (.error error, after))
    (next : α → ExceptT ε (StateM σ) β) :
    (action >>= next).run.run state = (.error error, after) := by
  simp only [ExceptT.run_bind, StateT.run_bind, h]
  rfl

end

section
variable {α β : Type} {index : Index} {path : List Pointer}

/-- However the action ends from a state, it gets there by steps. When it has a result, `post`
holds of it from then on, and when it fails, a reference is broken. -/
def YieldsFrom (index : Index) (path : List Pointer) (state : State) (action : TypingM α)
    (post : State → α → Prop) : Prop :=
  match action.run.run state with
  | (.ok a, after) => Run index path state after ∧ ∀ later, Run index path after later → post later a
  | (.error error, after) => Run index path state after ∧ index.Broken error

/-- What an action does from every state. -/
def Yields (index : Index) (path : List Pointer) (action : TypingM α) (post : State → α → Prop) :
    Prop :=
  ∀ state, YieldsFrom index path state action post

theorem YieldsFrom.cases {state : State} {action : TypingM α} {post : State → α → Prop}
    (h : YieldsFrom index path state action post) :
    (∃ a after, action.run.run state = (.ok a, after) ∧ Run index path state after ∧
      ∀ later, Run index path after later → post later a) ∨
    ∃ error after, action.run.run state = (.error error, after) ∧ Run index path state after ∧
      index.Broken error := by
  unfold YieldsFrom at h
  rcases hr : action.run.run state with ⟨_ | a, after⟩
  · simp only [hr] at h
    exact .inr ⟨_, after, rfl, h⟩
  · simp only [hr] at h
    exact .inl ⟨a, after, rfl, h⟩

theorem run_get (state : State) (next : State → TypingM β) :
    (MonadState.get >>= next).run.run state = (next state).run.run state :=
  rfl

theorem YieldsFrom.bind {state : State} {action : TypingM α} {next : α → TypingM β}
    {mid : State → α → Prop} {post : State → β → Prop}
    (ha : YieldsFrom index path state action mid)
    (hn : ∀ a, Yields index path (next a) fun state b => mid state a → post state b) :
    YieldsFrom index path state (action >>= next) post := by
  unfold YieldsFrom
  rcases ha.cases with ⟨a, after, he, run, hm⟩ | ⟨error, after, he, run, broken⟩
  · rw [run_bind_of_ok he]
    rcases (hn a after).cases with ⟨b, final, he', run', hp⟩ | ⟨error, final, he', run', broken⟩
    · rw [he']
      exact ⟨run.trans run', fun later hl => hp later hl (hm later (run'.trans hl))⟩
    · rw [he']
      exact ⟨run.trans run', broken⟩
  · rw [run_bind_of_error he]
    exact ⟨run, broken⟩

theorem YieldsFrom.imp {state : State} {action : TypingM α} {post post' : State → α → Prop}
    (h : YieldsFrom index path state action post) (hp : ∀ state a, post state a → post' state a) :
    YieldsFrom index path state action post' := by
  unfold YieldsFrom
  rcases h.cases with ⟨a, after, he, run, hm⟩ | ⟨error, after, he, run, broken⟩
  · rw [he]
    exact ⟨run, fun later hl => hp later a (hm later hl)⟩
  · rw [he]
    exact ⟨run, broken⟩

theorem YieldsFrom.pure {state : State} {a : α} {post : State → α → Prop}
    (h : ∀ later, Run index path state later → post later a) :
    YieldsFrom index path state (Pure.pure a) post :=
  ⟨.refl, h⟩

/-- An action that starts by reading the state goes on from that state. -/
theorem YieldsFrom.get {state : State} {next : State → TypingM α} {post : State → α → Prop}
    (h : YieldsFrom index path state (next state) post) :
    YieldsFrom index path state (MonadState.get >>= next) post :=
  h

theorem Yields.pure {a : α} {post : State → α → Prop} (h : ∀ state, post state a) :
    Yields index path (Pure.pure a) post :=
  fun _ => .pure fun later _ => h later

theorem Yields.bind {action : TypingM α} {next : α → TypingM β} {mid : State → α → Prop}
    {post : State → β → Prop} (ha : Yields index path action mid)
    (hn : ∀ a, Yields index path (next a) fun state b => mid state a → post state b) :
    Yields index path (action >>= next) post :=
  fun state => (ha state).bind hn

theorem Yields.imp {action : TypingM α} {post post' : State → α → Prop}
    (h : Yields index path action post) (hp : ∀ state a, post state a → post' state a) :
    Yields index path action post' :=
  fun state => (h state).imp hp

theorem Yields.map {action : TypingM α} {f : α → β} {post : State → β → Prop}
    (h : Yields index path action fun state a => post state (f a)) :
    Yields index path (f <$> action) post := by
  rw [map_eq_pure_bind]
  exact h.bind fun a => .pure fun _ hp => hp

/-- What holds while more places are being expanded holds while fewer are, if it never stops
holding. -/
theorem Yields.narrow {more : List Pointer} {action : TypingM α} {post : State → α → Prop}
    (h : Yields index (path ++ more) action post)
    (mono : ∀ a b x, a.Grows b → post a x → post b x) : Yields index path action post := by
  intro state
  unfold YieldsFrom
  rcases (h state).cases with ⟨a, after, he, run, hm⟩ | ⟨error, after, he, run, broken⟩
  · rw [he]
    exact ⟨run.narrow, fun later hl => mono after later a hl.grows (hm after .refl)⟩
  · rw [he]
    exact ⟨run.narrow, broken⟩

theorem warn_yields (kind : WarningKind) {place : Pointer} (message : String)
    (h : (index.get? place).isSome) :
    Yields index path (warn kind place message)
      fun state _ => ⟨kind, some place, message⟩ ∈ state.warnings := by
  intro state
  refine ⟨.single (.warn kind place message h), fun later hl => ?_⟩
  exact hl.grows.warnings.subset (List.mem_append_right _ List.mem_cons_self)

theorem unsupported_yields {place : Pointer} (reason : String) (h : (index.get? place).isSome) :
    Yields index path (unsupported place reason)
      fun state type => Noted state .unsupportedShape place reason type :=
  (warn_yields .unsupportedShape reason h).bind fun _ => .pure fun _ hw => ⟨rfl, hw⟩

theorem ambiguous_yields {place : Pointer} (reason : String) (h : (index.get? place).isSome) :
    Yields index path (ambiguous place reason)
      fun state type => Noted state .ambiguousShape place reason type :=
  (warn_yields .ambiguousShape reason h).bind fun _ => .pure fun _ hw => ⟨rfl, hw⟩

theorem run_promote (place : Pointer) (state : State) :
    (promote place).run.run state =
      let named := state.names.assign place (place.last?.getD "Schema")
      (.ok named.1,
        { state with names := named.2, promoted := state.promoted ++ [(place, named.1)] }) :=
  rfl

theorem promote_yieldsFrom (target : index.Target) {state : State}
    (unnamed : state.names.get? target.pointer = none) :
    YieldsFrom index path state (promote target.pointer)
      fun state name => state.names.get? target.pointer = some name := by
  unfold YieldsFrom
  rw [run_promote, NameTable.assign_of_none _ unnamed]
  refine ⟨.single (.promote target unnamed), fun later hl => NameTable.get?_mono hl.grows.names ?_⟩
  exact NameTable.get?_extended _ unnamed

/-- Promoting a place gives its name as the type for a reference to it. -/
theorem refToPromoted_yieldsFrom (target : index.Target) {state : State}
    (unnamed : state.names.get? target.pointer = none) :
    YieldsFrom index path state (do return .ref (← promote target.pointer))
      fun state type => TargetTyped state target.pointer type :=
  (promote_yieldsFrom target unnamed).bind fun name =>
    .pure fun _ hn => .inl ⟨name, hn, rfl⟩

/-! ## Values, lists and fields -/

theorem literalType_yields {place : Pointer} (h : (index.get? place).isSome) (value : Json) :
    Yields index path (literalType place value) fun state type =>
      LiteralTyped state place value type := by
  unfold literalType
  split
  · exact .pure fun _ => rfl
  · exact .pure fun _ => rfl
  · exact .pure fun _ => rfl
  · exact .pure fun _ => rfl
  · exact .pure fun _ => rfl
  · exact unsupported_yields _ h
  · exact unsupported_yields _ h

theorem literalTypes_yields {place : Pointer} (h : (index.get? place).isSome) (values : List Json) :
    Yields index path (literalTypes place values) fun state types =>
      List.Forall₂ (LiteralTyped state place) values types := by
  induction values with
  | nil => exact .pure fun _ => .nil
  | cons value rest ih =>
    exact (literalType_yields h value).bind fun _ => ih.bind fun _ =>
      .pure fun _ hr hf => .cons hf hr

end

section
variable {index : Index} {path : List Pointer} {node : Json} {typeInner : TypeInner node}
  {typed : State → InnerTyped node}
  (inner : ∀ (inner : Inner node) place, index.get? place = some inner.node →
    Yields index path (typeInner inner place) fun state type => typed state inner place type)
  {place : Pointer}
include inner

theorem typesOfList_yields {inners : List (Inner node)} {number : Nat}
    (h : ∀ (n : Nat) (i : Inner node), inners[n]? = some i →
      index.get? (place.element (number + n)) = some i.node) :
    Yields index path (typesOfList typeInner place number inners) fun state types =>
      ListTyped (typed state) place number inners types := by
  induction inners generalizing number with
  | nil => exact .pure fun _ => .nil
  | cons first rest ih =>
    have rest_stands (n : Nat) (i : Inner node) (hn : rest[n]? = some i) :
        index.get? (place.element (number + 1 + n)) = some i.node := by
      have := h (n + 1) i (by simpa using hn)
      rwa [show number + (n + 1) = number + 1 + n by omega] at this
    exact (inner first _ (h 0 first rfl)).bind fun _ => (ih rest_stands).bind fun _ =>
      .pure fun _ hr hf => .cons hf hr

theorem typesOfStanding_yields {inners : List (Inner node)} (h : ListStands index place inners) :
    Yields index path (typesOfList typeInner place 0 inners) fun state types =>
      ListTyped (typed state) place 0 inners types :=
  typesOfList_yields inner fun n i hn => by simpa using h n i hn

theorem typesOfFields_yields {fields : List (String × Inner node)}
    (h : FieldsStand index place fields) :
    Yields index path (typesOfFields typeInner place fields) fun state types =>
      FieldsTyped (typed state) place fields types := by
  induction fields with
  | nil => exact .pure fun _ => .nil
  | cons first rest ih =>
    obtain ⟨key, i⟩ := first
    exact (inner i _ (h.stands key i List.mem_cons_self)).bind fun _ => (ih h.tail).bind fun _ =>
      .pure fun _ hr hf => .cons hf hr

/-! ## Kinds of value -/

theorem additionalType_yields {additional : Additional (Inner node)}
    (h : AdditionalStands index place additional) :
    Yields index path (additionalType typeInner place additional) fun state type =>
      AdditionalTyped (typed state) place additional type := by
  cases additional with
  | absent | forbidden | any => exact .pure fun _ => rfl
  | schema i => exact .map ((inner i _ h).imp fun _ t ht => ⟨t, rfl, ht⟩)

theorem coreType_yields {core : Core (Inner node)} (h : CoreStands index place core) :
    Yields index path (coreType typeInner place core) fun state type =>
      CoreTyped (typed state) place core type := by
  cases core with
  | scalar kind => exact .pure fun _ => rfl
  | array items =>
    cases items with
    | absent => exact .pure fun _ => rfl
    | single i => exact .map ((inner i _ h).imp fun _ t ht => ⟨t, rfl, ht⟩)
    | tuple inners =>
      exact (typesOfStanding_yields inner h).bind fun types =>
        .pure fun _ hl => ⟨types, hl, rfl⟩
  | object shape =>
    exact (typesOfFields_yields inner h.1).bind fun types =>
      (additionalType_yields inner h.2).bind fun additional =>
        .pure fun _ ha hf => ⟨types, additional, hf, ha, rfl⟩

theorem coreTypes_yields {cores : List (Core (Inner node))}
    (h : ∀ core ∈ cores, CoreStands index place core) :
    Yields index path (coreTypes typeInner place cores) fun state types =>
      List.Forall₂ (CoreTyped (typed state) place) cores types := by
  induction cores with
  | nil => exact .pure fun _ => .nil
  | cons core rest ih =>
    have rest_stands : ∀ core ∈ rest, CoreStands index place core := fun core hm =>
      h core (List.mem_cons_of_mem _ hm)
    exact (coreType_yields inner (h core List.mem_cons_self)).bind fun _ =>
      (ih rest_stands).bind fun _ => .pure fun _ hr hf => .cons hf hr

theorem baseType_yields {base : Base (Inner node)} (h : BaseStands index place base) :
    Yields index path (baseType typeInner place base) fun state type =>
      BaseTyped (typed state) place base type := by
  cases base with
  | one core => exact coreType_yields inner h
  | several cores =>
    exact (coreTypes_yields inner h).bind fun types => .pure fun _ hc => ⟨types, hc, rfl⟩

/-! ## Composition -/

theorem choiceUnder_yields {keyword : String} {inners : Option (List (Inner node))}
    (h : ∀ is, inners = some is → ListStands index (place.child keyword) is) :
    Yields index path (choiceUnder typeInner place keyword inners) fun state types =>
      ChoiceUnderTyped (typed state) place keyword inners types := by
  cases inners with
  | none => exact .pure fun _ => rfl
  | some is =>
    rw [choiceUnder_some]
    exact (typesOfStanding_yields inner (h is rfl)).bind fun ts => .pure fun _ hl => ⟨ts, hl, rfl⟩

theorem baseUnder_yields {base : Option (Base (Inner node))}
    (h : ∀ b, base = some b → BaseStands index place b) :
    Yields index path (baseUnder typeInner place base) fun state types =>
      BaseUnderTyped (typed state) place base types := by
  cases base with
  | none => exact .pure fun _ => rfl
  | some b =>
    exact (baseType_yields inner (h b rfl)).bind fun type => .pure fun _ ht => ⟨type, ht, rfl⟩

theorem allUnder_yields {inners : Option (List (Inner node))}
    (h : ∀ is, inners = some is → ListStands index (place.child "allOf") is) :
    Yields index path (allUnder typeInner place inners) fun state types =>
      AllUnderTyped (typed state) place inners types := by
  cases inners with
  | none => exact .pure fun _ => rfl
  | some is =>
    exact (typesOfStanding_yields inner (h is rfl)).bind fun ts => .pure fun _ hl => ⟨ts, hl, rfl⟩

omit inner in
theorem notUnder_yields (h : (index.get? place).isSome) (schema : Option Json) :
    Yields index path (notUnder place schema) fun state types =>
      NotUnderTyped state place schema types := by
  cases schema with
  | none => exact .pure fun _ => rfl
  | some _ => exact (unsupported_yields _ h).bind fun type => .pure fun _ ht => ⟨type, ht, rfl⟩

theorem compositeType_yields {composition : Composition (Inner node)}
    {base : Option (Base (Inner node))} (hp : (index.get? place).isSome)
    (hc : CompositionStands index place composition)
    (hb : ∀ b, base = some b → BaseStands index place b) :
    Yields index path (compositeType typeInner composition base place) fun state result =>
      CompositeTyped (typed state) place state composition base result.1 result.2 := by
  exact (baseUnder_yields inner hb).bind fun bs => (allUnder_yields inner hc.allOf).bind fun as =>
    (choiceUnder_yields inner hc.oneOf).bind fun os =>
      (choiceUnder_yields inner hc.anyOf).bind fun ys => (notUnder_yields hp _).bind fun ns =>
        .pure fun _ hn hy ho ha hb => ⟨bs, as, os, ys, ns, hb, ha, ho, hy, hn, rfl, rfl⟩

end

/-! ## Schemas -/

section
variable {index : Index} {path : List Pointer} {follow : String → Pointer → TypingM TypeExpr}
  (follows : ∀ reference place node, index.get? place = some node →
    reference? node = some reference →
    Yields index path (follow reference place) fun state type =>
      ReferenceTyped state index reference type)
include follows

theorem shapeType_yields {node : Json} {typeInner : TypeInner node}
    {typed : State → InnerTyped node} {place : Pointer}
    (inner : ∀ (inner : Inner node) place, index.get? place = some inner.node →
      Yields index path (typeInner inner place) fun state type => typed state inner place type)
    (h : index.get? place = some node) {shape : Shape (Inner node)}
    (hs : ShapeStands index place shape) :
    Yields index path (shapeType typeInner follow place shape) fun state result =>
      ShapeTyped (typed state) place index state shape result.1 result.2 := by
  have stands : (index.get? place).isSome := by simp [h]
  cases shape with
  | any | nothing => exact .pure fun _ => ⟨rfl, rfl⟩
  | reference reference =>
    exact (follows reference place node h hs).bind fun _ => .pure fun _ hr => ⟨hr, rfl⟩
  | enumeration values =>
    exact (literalTypes_yields stands values).bind fun types =>
      .pure fun _ hl => ⟨⟨types, hl, rfl⟩, rfl⟩
  | enumerationWithComposition =>
    exact (ambiguous_yields _ stands).bind fun _ => .pure fun _ hn => ⟨hn, rfl⟩
  | constant value =>
    exact (literalType_yields stands value).bind fun _ => .pure fun _ hl => ⟨hl, rfl⟩
  | composite composition base => exact compositeType_yields inner stands hs.1 hs.2
  | structural base => exact (baseType_yields inner hs).bind fun _ => .pure fun _ hb => ⟨hb, rfl⟩
  | unsupported reason =>
    exact (unsupported_yields _ stands).bind fun _ => .pure fun _ hn => ⟨hn, rfl⟩

omit follows in
theorem withNull_yields {node : Json} {place : Pointer} (h : index.get? place = some node)
    (bare : TypeExpr) (choiceHasNull : Bool) :
    Yields index path (withNull node place bare choiceHasNull) fun state type =>
      NullTyped state node place bare choiceHasNull type := by
  unfold withNull NullTyped
  cases isNullable node
  · exact .pure fun _ => rfl
  · cases choiceHasNull
    · exact .pure fun _ => rfl
    · exact ambiguous_yields _ (by simp [h])

/-- Typing a schema of the document, when following references does what it should. -/
theorem typeOfNode_yields (node : Json) (place : Pointer) (h : index.get? place = some node) :
    Yields index path (typeOfNode follow node place) fun state type =>
      NodeTyped index state node place type := by
  rw [typeOfNode]
  have inner (i : Inner node) (p : Pointer) (hi : index.get? p = some i.node) :
      Yields index path (typeOfNode follow i.node p) fun state type =>
        NodeTyped index state i.node p type := typeOfNode_yields i.node p hi
  refine (shapeType_yields follows inner h (shape_stands h)).bind fun result => ?_
  refine (withNull_yields h result.1 result.2).imp fun state type hn hs => ?_
  exact nodeTyped_iff.2 ⟨result.1, result.2, hs, hn⟩
termination_by sizeOf node
decreasing_by exact i.smaller

end

/-! ## References -/

/-- Recording what an expansion gave. -/
theorem expansion_yieldsFrom {index : Index} {path : List Pointer} {state : State}
    {target : index.Target} {action : TypingM TypeExpr} (outside : target.pointer ∉ path)
    (new : state.expanded.lookup target.pointer = none)
    (h : YieldsFrom index (path ++ [target.pointer]) state action fun state type =>
      NodeTyped index state target.node target.pointer type) :
    YieldsFrom index path state
      (do let type ← action; recordExpansion target.pointer type; return type)
      fun state type => TargetTyped state target.pointer type := by
  unfold YieldsFrom
  rcases h.cases with ⟨type, after, he, run, typed⟩ | ⟨error, after, he, run, broken⟩
  · rw [run_bind_of_ok he]
    have still : after.expanded.lookup target.pointer = none := by
      rw [run.lookup_expanded (by simp), new]
    refine ⟨run.narrow.tail (.record target type outside still (typed after .refl)), ?_⟩
    intro later hl
    exact .inr (hl.grows.expanded.subset (List.mem_append_right _ List.mem_cons_self))
  · rw [run_bind_of_error he]
    exact ⟨run.narrow, broken⟩

theorem targetTyped_of_lookup {state : State} {target : Pointer} {type : TypeExpr}
    (h : state.expanded.lookup target = some type) : TargetTyped state target type :=
  .inr (mem_of_lookup h)

/-- Following a reference of the document. A target that is expanded is recorded, so its type can
be told from the state afterwards. -/
theorem typeOfReference_yields (index : Index) (path : List Pointer) (reference : String)
    (place : Pointer) (node : Json) (hp : index.get? place = some node)
    (hr : reference? node = some reference) :
    Yields index path (typeOfReference index path reference place) fun state type =>
      ReferenceTyped state index reference type := by
  intro state
  rw [typeOfReference]
  cases he : index.resolve reference place with
  | error error => exact ⟨.refl, Index.broken_of_resolve hp hr he⟩
  | ok target =>
    suffices YieldsFrom index path state _ fun state type =>
        TargetTyped state target.pointer type from
      this.imp fun _ _ ht => ⟨target, Index.locate?_of_resolve he, ht⟩
    refine .get ?_
    cases hn : state.names.get? target.pointer with
    | some name =>
      exact .pure fun later hl => .inl ⟨name, NameTable.get?_mono hl.grows.names hn, rfl⟩
    | none =>
      dsimp only
      split
      · exact refToPromoted_yieldsFrom target hn
      · rename_i outside
        have outside : target.pointer ∉ path := by simpa [Index.Target.isCycle] using outside
        cases hx : state.expanded.lookup target.pointer with
        | some type =>
          dsimp only
          split
          · exact .pure fun later hl => (targetTyped_of_lookup hx).mono hl.grows
          · exact refToPromoted_yieldsFrom target hn
        | none =>
          have smaller := Index.unvisited_lt target.found outside
          refine expansion_yieldsFrom outside hx ?_
          refine typeOfNode_yields (fun r p n hp hr => ?_) target.node target.pointer target.found state
          exact typeOfReference_yields index (path ++ [target.pointer]) r p n hp hr
termination_by index.unvisited path

/-- Typing a schema of the document. -/
theorem typeAt_yields (index : Index) (path : List Pointer) (node : Json) (place : Pointer)
    (h : index.get? place = some node) :
    Yields index path (typeAt index path node place) fun state type =>
      NodeTyped index state node place type :=
  typeOfNode_yields (typeOfReference_yields index path) node place h

theorem typeOfRoot_yields (index : Index) (node : Json) (place : Pointer)
    (h : index.get? place = some node) :
    Yields index [] (typeOfRoot index node place) fun state type =>
      NodeTyped index state node place type :=
  Yields.narrow (typeAt_yields index ([] ++ [place]) node place h) fun _ _ type grows =>
    NodeTyped.mono grows node place type

end Typing

end ApiTypes
