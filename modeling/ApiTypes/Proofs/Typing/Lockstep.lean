import ApiTypes.Proofs.Typing.Parallel

/-!
# Typing in lockstep

The parts of typing, one lemma each, keep the states of typing in two documents parallel. When
references lead to corresponding places (`Placed`), so does the whole of it:
`typeOfReference_lockstep`, `typeOfRoot_lockstep`.
-/

namespace ApiTypes.Typing

open Relator Schema TypeExpr

/-! ## Values, lists and fields -/

section
variable {above : Pointer}

theorem literalType_lockstep (place : Pointer) (value : Json) :
    Lockstep above (literalType place value) (literalType (above.under place) value)
      Renamed := by
  unfold literalType
  split
  · exact .pure fun _ _ => .literal _
  · exact .pure fun _ _ => .literal _
  · exact .pure fun _ _ => .literal _
  · exact .pure fun _ _ => .literal _
  · exact .pure fun _ _ => .literal _
  · exact unsupported_lockstep _ _
  · exact unsupported_lockstep _ _

theorem literalTypes_lockstep (place : Pointer) (values : List Json) :
    Lockstep above (literalTypes place values) (literalTypes (above.under place) values)
      fun R => List.Forall₂ (Renamed R) := by
  induction values with
  | nil => exact .pure fun _ _ => .nil
  | cons value rest ih =>
    exact (literalType_lockstep place value).bind fun _ _ => ih.bind fun _ _ =>
      .pure fun _ _ hr hf => .cons hf hr

end

section
variable {above : Pointer} {index : Index} {node : Json} {typeInner typeInner' : TypeInner node}
  (inner : ∀ (inner : Inner node) place, index.get? place = some inner.node →
    Lockstep above (typeInner inner place) (typeInner' inner (above.under place))
      Renamed)
  {place : Pointer}
include inner

theorem typesOfList_lockstep {inners : List (Inner node)} {number : Nat}
    (h : ∀ (n : Nat) (i : Inner node), inners[n]? = some i →
      index.get? (place.element (number + n)) = some i.node) :
    Lockstep above (typesOfList typeInner place number inners)
      (typesOfList typeInner' (above.under place) number inners)
      fun R => List.Forall₂ (Renamed R) := by
  induction inners generalizing number with
  | nil => exact .pure fun _ _ => .nil
  | cons first rest ih =>
    have rest_stands (n : Nat) (i : Inner node) (hn : rest[n]? = some i) :
        index.get? (place.element (number + 1 + n)) = some i.node := by
      have := h (n + 1) i (by simpa using hn)
      rwa [show number + (n + 1) = number + 1 + n by omega] at this
    have here := inner first _ (h 0 first rfl)
    rw [Nat.add_zero, above.under_element] at here
    exact here.bind fun _ _ => (ih rest_stands).bind fun _ _ => .pure fun _ _ hr hf => .cons hf hr

theorem typesOfStanding_lockstep {inners : List (Inner node)} (h : ListStands index place inners) :
    Lockstep above (typesOfList typeInner place 0 inners)
      (typesOfList typeInner' (above.under place) 0 inners) fun R => List.Forall₂ (Renamed R) :=
  typesOfList_lockstep inner fun n i hn => by simpa using h n i hn

theorem typesOfFields_lockstep {fields : List (String × Inner node)}
    (h : FieldsStand index place fields) :
    Lockstep above (typesOfFields typeInner place fields)
      (typesOfFields typeInner' (above.under place) fields) fun R => List.Forall₂ (Renamed R) := by
  induction fields with
  | nil => exact .pure fun _ _ => .nil
  | cons first rest ih =>
    obtain ⟨key, i⟩ := first
    have here := inner i _ (h.stands key i List.mem_cons_self)
    rw [above.under_child] at here
    exact here.bind fun _ _ => (ih h.tail).bind fun _ _ => .pure fun _ _ hr hf => .cons hf hr

/-! ## Kinds of value -/

theorem additionalType_lockstep {additional : Additional (Inner node)}
    (h : AdditionalStands index place additional) :
    Lockstep above (additionalType typeInner place additional)
      (additionalType typeInner' (above.under place) additional)
      fun R => Option.Rel (Renamed R) := by
  cases additional with
  | absent => exact .pure fun _ _ => .none
  | forbidden => exact .pure fun _ _ => .none
  | any => exact .pure fun _ _ => .some (.unknown none)
  | schema i =>
    have here := inner i _ h
    rw [above.under_child] at here
    exact .map (here.imp fun _ _ _ _ renamed => .some renamed)

omit inner in
theorem renamed_widenIndex {R : String → String → Prop} (unique : BiUnique R) {value value' : TypeExpr}
    {types types' : List TypeExpr} (hv : Renamed R value value')
    (h : List.Forall₂ (Renamed R) types types') (anyOptional : Bool) :
    Renamed R (widenIndex value types anyOptional) (widenIndex value' types' anyOptional) := by
  have empty : types.isEmpty = types'.isEmpty := by cases h <;> rfl
  have undefined : List.Forall₂ (Renamed R) (if anyOptional then [.undefined] else [])
      (if anyOptional then [.undefined] else []) := by
    split
    · exact .cons (.primitive .undefined) .nil
    · exact .nil
  have widened : Renamed R
      (if types.isEmpty then value
        else .unionOf (value :: types ++ if anyOptional then [.undefined] else []))
      (if types'.isEmpty then value'
        else .unionOf (value' :: types' ++ if anyOptional then [.undefined] else [])) := by
    rw [empty]
    split
    · exact hv
    · exact renamed_unionOf unique (List.rel_append (.cons hv h) undefined)
  cases hv with
  | unknown note => exact .unknown note
  | primitive | literal | array | object | union | intersection | ref => exact widened

theorem objectType_lockstep {shape : ObjectShape (Inner node)}
    (h : CoreStands index place (.object shape)) :
    Lockstep above (objectType typeInner shape place)
      (objectType typeInner' shape (above.under place)) Renamed := by
  have fields := typesOfFields_lockstep inner h.1
  rw [above.under_child] at fields
  refine fields.bind fun types types' =>
    (additionalType_lockstep inner h.2).bind fun additional additional' => .pure ?_
  intro R unique ha ht
  apply Renamed.object
  apply renamedMembers_iff.2
  apply List.rel_append
  · refine forall₂_zipWith ?_ ht _
    intro field type type' renamed
    exact .property _ _ _ _ renamed
  · cases ha with
    | none => exact .nil
    | some hv =>
      exact .cons (.index (.primitive .string) (renamed_widenIndex unique hv ht _)) .nil

theorem coreType_lockstep {core : Core (Inner node)} (h : CoreStands index place core) :
    Lockstep above (coreType typeInner place core)
      (coreType typeInner' (above.under place) core) Renamed := by
  cases core with
  | scalar kind =>
    cases kind with
    | null => exact .pure fun _ _ => .literal _
    | _ => exact .pure fun _ _ => .primitive _
  | array items =>
    cases items with
    | absent => exact .pure fun _ _ => .array (.unknown none)
    | single i =>
      have here := inner i _ h
      rw [above.under_child] at here
      exact .map (here.imp fun _ _ _ _ renamed => .array renamed)
    | tuple inners =>
      have each := typesOfStanding_lockstep inner h
      rw [above.under_child] at each
      exact each.bind fun _ _ => .pure fun _ unique ht => .array (renamed_unionOf unique ht)
  | object shape => exact objectType_lockstep inner h

theorem coreTypes_lockstep {cores : List (Core (Inner node))}
    (h : ∀ core ∈ cores, CoreStands index place core) :
    Lockstep above (coreTypes typeInner place cores)
      (coreTypes typeInner' (above.under place) cores) fun R => List.Forall₂ (Renamed R) := by
  induction cores with
  | nil => exact .pure fun _ _ => .nil
  | cons core rest ih =>
    have rest_stands : ∀ core ∈ rest, CoreStands index place core := fun core hm =>
      h core (List.mem_cons_of_mem _ hm)
    exact (coreType_lockstep inner (h core List.mem_cons_self)).bind fun _ _ =>
      (ih rest_stands).bind fun _ _ => .pure fun _ _ hr hf => .cons hf hr

theorem baseType_lockstep {base : Base (Inner node)} (h : BaseStands index place base) :
    Lockstep above (baseType typeInner place base)
      (baseType typeInner' (above.under place) base) Renamed := by
  cases base with
  | one core => exact coreType_lockstep inner h
  | several cores =>
    exact (coreTypes_lockstep inner h).bind fun _ _ =>
      .pure fun _ unique ht => renamed_unionOf unique ht

/-! ## Composition -/

omit inner in
theorem renamed_taggedType {R : String → String → Prop} (property : String)
    (mapping : Option (List (String × Json))) (schema : Json) {type type' : TypeExpr}
    (h : Renamed R type type') :
    Renamed R (taggedType property mapping schema type)
      (taggedType property mapping schema type') := by
  unfold taggedType
  split
  · rename_i tag _
    have tagging : Renamed R (.object [Member.plain property (.literal (.string tag)) false])
        (.object [Member.plain property (.literal (.string tag)) false]) :=
      .object (.cons (.property _ _ _ _ (.literal _)) .nil)
    exact .intersection (.cons tagging (.cons h .nil))
  · exact h

theorem choiceUnder_lockstep {keyword : String} {inners : Option (List (Inner node))}
    (h : ∀ is, inners = some is → ListStands index (place.child keyword) is) :
    Lockstep above (choiceUnder typeInner place keyword inners)
      (choiceUnder typeInner' (above.under place) keyword inners)
      fun R => List.Forall₂ (Renamed R) := by
  cases inners with
  | none => exact .pure fun _ _ => .nil
  | some is =>
    have choice : Lockstep above (choiceType typeInner (place.child keyword) is)
        (choiceType typeInner' (above.under (place.child keyword)) is) Renamed := by
      refine (typesOfStanding_lockstep inner (h is rfl)).bind fun types types' => ?_
      cases discriminator? node with
      | none => exact .pure fun _ unique ht => renamed_unionOf unique ht
      | some named =>
        refine .pure fun _ unique ht => renamed_unionOf unique (forall₂_zipWith ?_ ht is)
        intro i type type' renamed
        exact renamed_taggedType named.1 named.2 i.node renamed
    rw [above.under_child] at choice
    exact choice.bind fun _ _ => .pure fun _ _ hc => .cons hc .nil

theorem baseUnder_lockstep {base : Option (Base (Inner node))}
    (h : ∀ b, base = some b → BaseStands index place b) :
    Lockstep above (baseUnder typeInner place base)
      (baseUnder typeInner' (above.under place) base) fun R => List.Forall₂ (Renamed R) := by
  cases base with
  | none => exact .pure fun _ _ => .nil
  | some b =>
    exact (baseType_lockstep inner (h b rfl)).bind fun _ _ => .pure fun _ _ hb => .cons hb .nil

theorem allUnder_lockstep {inners : Option (List (Inner node))}
    (h : ∀ is, inners = some is → ListStands index (place.child "allOf") is) :
    Lockstep above (allUnder typeInner place inners)
      (allUnder typeInner' (above.under place) inners) fun R => List.Forall₂ (Renamed R) := by
  cases inners with
  | none => exact .pure fun _ _ => .nil
  | some is =>
    have each := typesOfStanding_lockstep inner (h is rfl)
    rw [above.under_child] at each
    exact each.bind fun _ _ => .pure fun _ _ ht => .cons (renamed_intersectionOf ht) .nil

omit inner in
theorem notUnder_lockstep (schema : Option Json) :
    Lockstep above (notUnder place schema) (notUnder (above.under place) schema)
      fun R => List.Forall₂ (Renamed R) := by
  cases schema with
  | none => exact .pure fun _ _ => .nil
  | some _ => exact (unsupported_lockstep _ _).bind fun _ _ => .pure fun _ _ hn => .cons hn .nil

omit inner in
theorem any_includesNull_renamed {R : String → String → Prop} {types types' : List TypeExpr}
    (h : List.Forall₂ (Renamed R) types types') :
    types.any includesNull = types'.any includesNull := by
  induction h with
  | nil => rfl
  | cons first _ ih => rw [List.any_cons, List.any_cons, includesNull_renamed first, ih]

/-- The results of typing a shape: types that differ in names, and the same answer to whether null
is among the alternatives. -/
def ResultsAlike (R : String → String → Prop) (a b : TypeExpr × Bool) : Prop :=
  Renamed R a.1 b.1 ∧ a.2 = b.2

theorem compositeType_lockstep {composition : Composition (Inner node)}
    {base : Option (Base (Inner node))} (hc : CompositionStands index place composition)
    (hb : ∀ b, base = some b → BaseStands index place b) :
    Lockstep above (compositeType typeInner composition base place)
      (compositeType typeInner' composition base (above.under place)) ResultsAlike := by
  refine (baseUnder_lockstep inner hb).bind fun bs bs' =>
    (allUnder_lockstep inner hc.allOf).bind fun as as' =>
      (choiceUnder_lockstep inner hc.oneOf).bind fun os os' =>
        (choiceUnder_lockstep inner hc.anyOf).bind fun ys ys' =>
          (notUnder_lockstep _).bind fun ns ns' => .pure ?_
  intro R _ hn hy ho ha hb
  constructor
  · apply renamed_intersectionOf
    exact List.rel_append (List.rel_append (List.rel_append (List.rel_append hb ha) ho) hy) hn
  · exact any_includesNull_renamed (List.rel_append ho hy)

end

/-! ## Schemas -/

section
variable {above : Pointer} {index : Index} {follow follow' : String → Pointer → TypingM TypeExpr}
  (follows : ∀ reference place node, index.get? place = some node →
    reference? node = some reference →
    Lockstep above (follow reference place) (follow' reference (above.under place))
      Renamed)
include follows

theorem shapeType_lockstep {node : Json} {typeInner typeInner' : TypeInner node} {place : Pointer}
    (inner : ∀ (inner : Inner node) place, index.get? place = some inner.node →
      Lockstep above (typeInner inner place) (typeInner' inner (above.under place))
        Renamed)
    (h : index.get? place = some node) {shape : Shape (Inner node)}
    (hs : ShapeStands index place shape) :
    Lockstep above (shapeType typeInner follow place shape)
      (shapeType typeInner' follow' (above.under place) shape) ResultsAlike := by
  cases shape with
  | any => exact .pure fun _ _ => ⟨.unknown none, rfl⟩
  | nothing => exact .pure fun _ _ => ⟨.primitive .never, rfl⟩
  | reference reference =>
    exact (follows reference place node h hs).bind fun _ _ => .pure fun _ _ hr => ⟨hr, rfl⟩
  | enumeration values =>
    exact (literalTypes_lockstep place values).bind fun _ _ =>
      .pure fun _ unique hl => ⟨renamed_unionOf unique hl, rfl⟩
  | enumerationWithComposition =>
    exact (ambiguous_lockstep _ _).bind fun _ _ => .pure fun _ _ hn => ⟨hn, rfl⟩
  | constant value =>
    exact (literalType_lockstep place value).bind fun _ _ => .pure fun _ _ hl => ⟨hl, rfl⟩
  | composite composition base => exact compositeType_lockstep inner hs.1 hs.2
  | structural base =>
    exact (baseType_lockstep inner hs).bind fun _ _ => .pure fun _ _ hb => ⟨hb, rfl⟩
  | unsupported reason =>
    exact (unsupported_lockstep _ _).bind fun _ _ => .pure fun _ _ hn => ⟨hn, rfl⟩

omit follows in
theorem withNull_lockstep (node : Json) (place : Pointer) (type type' : TypeExpr)
    (choiceHasNull : Bool) :
    Lockstep above (withNull node place type choiceHasNull)
      (withNull node (above.under place) type' choiceHasNull)
      fun R result result' => Renamed R type type' → Renamed R result result' := by
  unfold withNull
  cases isNullable node with
  | false => exact .pure fun _ _ => id
  | true =>
    cases choiceHasNull with
    | true => exact (ambiguous_lockstep _ _).imp fun _ _ _ _ hn _ => hn
    | false =>
      exact .pure fun _ unique ht => renamed_unionOf unique (.cons ht (.cons (.literal _) .nil))

theorem typeOfNode_lockstep (node : Json) (place : Pointer) (h : index.get? place = some node) :
    Lockstep above (typeOfNode follow node place) (typeOfNode follow' node (above.under place))
      Renamed := by
  rw [typeOfNode, typeOfNode]
  have inner (i : Inner node) (p : Pointer) (hi : index.get? p = some i.node) :
      Lockstep above (typeOfNode follow i.node p) (typeOfNode follow' i.node (above.under p))
        Renamed :=
    typeOfNode_lockstep i.node p hi
  intro bare full parallel
  refine (shapeType_lockstep follows inner h (shape_stands h) bare full parallel).bind ?_
  rintro ⟨type, choiceHasNull⟩ ⟨type', choiceHasNull'⟩ bare' full' parallel' - ⟨-, rfl⟩
  apply (withNull_lockstep node place type type' choiceHasNull).imp _ bare' full' parallel'
  intro R result result' _ renamed alike
  exact renamed alike.1
termination_by sizeOf node
decreasing_by exact i.smaller

end

/-! ## References -/

/-- The full document holds under `above` what the bare one holds, and a reference written in the
bare one leads to corresponding places in both, but never to its root. -/
structure Placed (above : Pointer) (bare full : Index) : Prop where
  nodes : ∀ place, full.get? (above.under place) = bare.get? place
  references : ∀ place node reference, bare.get? place = some node →
    reference? node = some reference →
    match bare.resolve reference place, full.resolve reference (above.under place) with
    | .ok target, .ok target' => target'.pointer = above.under target.pointer ∧
      target.pointer ≠ .root
    | .error e, .error e' => FailAlike above e e'
    | _, _ => False

theorem Placed.node {above : Pointer} {bare full : Index} (h : Placed above bare full)
    {target : bare.Target} {target' : full.Target}
    (same : target'.pointer = above.under target.pointer) : target'.node = target.node := by
  have found := h.nodes target.pointer
  rw [← same, target'.found, target.found] at found
  exact Option.some.inj found

section
variable {above : Pointer}

theorem isCycle_under {bare full : Index} (target : bare.Target) (target' : full.Target)
    (same : target'.pointer = above.under target.pointer) (path : List Pointer) :
    target'.isCycle (path.map above.under) = target.isCycle path := by
  rw [Index.Target.isCycle, Index.Target.isCycle, same, Bool.eq_iff_iff]
  simp only [List.contains_eq_mem, decide_eq_true_eq]
  exact List.mem_map_of_injective above.under_injective

theorem expansion_lockstepFrom {bare full : State} {place : Pointer} {first second : TypingM TypeExpr}
    (h : LockstepFrom above bare full first second Renamed) :
    LockstepFrom above bare full
      (do let type ← first; recordExpansion place type; return type)
      (do let type ← second; recordExpansion (above.under place) type; return type)
      Renamed :=
  h.bind fun _ _ _ _ parallel _ renamed =>
    (recordExpansion_lockstepFrom parallel place renamed).bind fun _ _ _ _ parallel' _ _ =>
      .pure parallel' fun _ _ _ _ hr => hr

theorem typeOfReference_lockstep {bareIndex fullIndex : Index}
    (placed : Placed above bareIndex fullIndex) (path : List Pointer) (reference : String)
    (place : Pointer) (node : Json) (hp : bareIndex.get? place = some node)
    (hr : reference? node = some reference) :
    Lockstep above (typeOfReference bareIndex path reference place)
      (typeOfReference fullIndex (path.map above.under) reference (above.under place)) Renamed := by
  intro bare full parallel
  rw [typeOfReference, typeOfReference]
  have leads := placed.references place node reference hp hr
  rcases ht : bareIndex.resolve reference place with error | target <;>
    rcases ht' : fullIndex.resolve reference (above.under place) with error' | target' <;>
    simp only [ht, ht'] at leads
  · exact leads
  · obtain ⟨same, inside⟩ := leads
    have node := placed.node same
    obtain ⟨pointer', node', found'⟩ := target'
    obtain rfl : pointer' = above.under target.pointer := same
    obtain rfl : node' = target.node := node
    apply LockstepFrom.get
    rcases parallel.names.get? target.pointer with ⟨hn, hn'⟩ | ⟨name, name', hn, hn'⟩
    · simp only [hn, hn']
      have again := isCycle_under target ⟨above.under target.pointer, target.node, found'⟩ rfl path
      by_cases cycle : target.isCycle path = true
      · rw [dif_pos cycle, dif_pos (again.trans cycle)]
        exact refToPromoted_lockstep inside bare full parallel
      · rw [dif_neg cycle, dif_neg (again ▸ cycle)]
        have outside : target.pointer ∉ path := by simpa [Index.Target.isCycle] using cycle
        have recorded := lookup_moved parallel.expanded target.pointer
        rcases hx : bare.expanded.lookup target.pointer with _ | type <;>
          rcases hx' : full.expanded.lookup (above.under target.pointer) with _ | type' <;>
          rw [hx, hx'] at recorded <;> cases recorded
        · have smaller := Index.unvisited_lt target.found outside
          have follows (r : String) (p : Pointer) (n : Json) (hp : bareIndex.get? p = some n)
              (hr : reference? n = some r) :=
            typeOfReference_lockstep placed (path ++ [target.pointer]) r p n hp hr
          rw [List.map_append, List.map_singleton] at follows
          apply expansion_lockstepFrom
          exact typeOfNode_lockstep follows target.node target.pointer target.found bare full
            parallel
        · rename_i renamed
          simp only [isSimple_renamed renamed]
          split
          · exact .pure parallel fun _ _ more => renamed.mono more
          · exact refToPromoted_lockstep inside bare full parallel
    · simp only [hn, hn']
      exact .pure parallel fun _ _ more => .ref (more ⟨_, hn, hn'⟩)
termination_by bareIndex.unvisited path

theorem typeOfRoot_lockstep {bareIndex fullIndex : Index} (placed : Placed above bareIndex fullIndex)
    (node : Json) (place : Pointer) (h : bareIndex.get? place = some node) :
    Lockstep above (typeOfRoot bareIndex node place)
      (typeOfRoot fullIndex node (above.under place)) Renamed :=
  typeOfNode_lockstep (typeOfReference_lockstep placed [place]) node place h

end

end ApiTypes.Typing
