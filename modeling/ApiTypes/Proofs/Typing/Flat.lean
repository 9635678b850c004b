import ApiTypes.Proofs.TypeExpr.Occurs
import ApiTypes.Proofs.Typing.Returns
import ApiTypes.TypeExpr.Printer

/-!
# Flat types

Unions are taken apart one level deep when they are put together, and that is enough, as no union
that typing makes has a union among its members (`Flat`). So the alternatives of a type made are no
unions themselves.

* `flat_unionOf`, `flat_intersectionOf`: putting flat types together keeps them flat;
* `typeAt_flat`: whatever the state typing starts in, what it makes is flat. Of the types recorded
  before, only short ones are repeated, and these are no unions.
-/

namespace ApiTypes.Typing

open Schema TypeExpr

/-! ## Flat types -/

/-- No union has a union among its members, as deep as unions and intersections go. -/
inductive Flat : TypeExpr → Prop
  | single {type : TypeExpr} (alone : ∀ types, type ≠ .union types ∧ type ≠ .intersection types) :
      Flat type
  | union {types : List TypeExpr} (apart : ∀ type ∈ types, type.isUnion = false)
      (members : ∀ type ∈ types, Flat type) : Flat (.union types)
  | intersection {types : List TypeExpr} (members : ∀ type ∈ types, Flat type) :
      Flat (.intersection types)

theorem Flat.alternative {type alternative : TypeExpr} (h : Flat type)
    (hm : alternative ∈ type.alternatives) : Flat alternative ∧ alternative.isUnion = false := by
  cases h with
  | union apart members => exact ⟨members _ hm, apart _ hm⟩
  | intersection members =>
    rw [List.mem_singleton.1 hm]
    exact ⟨.intersection members, rfl⟩
  | single alone =>
    cases type with
    | union types => exact absurd rfl (alone types).1
    | _ =>
      rw [List.mem_singleton.1 hm]
      exact ⟨.single alone, rfl⟩

theorem Flat.conjunct {type conjunct : TypeExpr} (h : Flat type)
    (hm : conjunct ∈ type.conjuncts) : Flat conjunct := by
  cases type with
  | intersection types =>
    cases h with
    | single alone => exact absurd rfl (alone types).2
    | intersection members => exact members _ hm
  | _ => rwa [List.mem_singleton.1 hm]

theorem flat_of_isSimple {type : TypeExpr} (h : type.isSimple = true) : Flat type := by
  apply Flat.single
  intro types
  constructor <;> rintro rfl <;> cases h

theorem flat_unionOf {types : List TypeExpr} (h : ∀ type ∈ types, Flat type) :
    Flat (.unionOf types) := by
  have each : ∀ type ∈ dedupe (types.flatMap alternatives), Flat type ∧ type.isUnion = false := by
    intro type hm
    obtain ⟨source, hs, ha⟩ := List.mem_flatMap.1 (mem_of_mem_dedupe hm)
    exact (h source hs).alternative ha
  unfold unionOf ofAlternatives
  split
  · exact flat_of_isSimple rfl
  · rename_i type single
    rw [single] at each
    exact (each type (List.mem_singleton_self type)).1
  · exact .union (fun type hm => (each type hm).2) fun type hm => (each type hm).1

/-- Of a union of flat types, the alternatives are those of the types, each once. -/
theorem alternatives_unionOf {types : List TypeExpr} (h : ∀ type ∈ types, Flat type)
    (some : dedupe (types.flatMap alternatives) ≠ []) :
    alternatives (.unionOf types) = dedupe (types.flatMap alternatives) := by
  refine alternatives_ofAlternatives some fun type hm => ?_
  obtain ⟨source, hs, ha⟩ := List.mem_flatMap.1 (mem_of_mem_dedupe hm)
  exact ((h source hs).alternative ha).2

theorem flat_intersectionOf {types : List TypeExpr} (h : ∀ type ∈ types, Flat type) :
    Flat (.intersectionOf types) := by
  have each : ∀ type ∈ types.flatMap conjuncts, Flat type := by
    intro type hm
    obtain ⟨source, hs, hc⟩ := List.mem_flatMap.1 hm
    exact (h source hs).conjunct hc
  unfold intersectionOf ofConjuncts
  split
  · exact flat_of_isSimple rfl
  · rename_i type single
    rw [single] at each
    exact each type (List.mem_singleton_self type)
  · exact .intersection each

theorem flat_object (members : List Member) : Flat (.object members) :=
  .single fun _ => ⟨nofun, nofun⟩

theorem flat_array (item : TypeExpr) : Flat (.array item) :=
  .single fun _ => ⟨nofun, nofun⟩

theorem flat_taggedType {property : String} {mapping : Option (List (String × Json))}
    {schema : Json} {type : TypeExpr} (h : Flat type) :
    Flat (taggedType property mapping schema type) := by
  unfold taggedType
  split
  · apply Flat.intersection
    intro conjunct hm
    rcases List.mem_pair.1 hm with rfl | rfl
    · exact flat_object _
    · exact h
  · exact h

/-! ## What typing makes -/

section
variable {α β : Type}

/-- Whatever the action is done in, what it returns is as said. -/
def Always (post : α → Prop) (action : TypingM α) : Prop :=
  ∀ before a after, Returns action before a after → post a

theorem Always.pure {post : α → Prop} {a : α} (h : post a) : Always post (Pure.pure a) := by
  intro before b after returned
  obtain ⟨rfl, -⟩ := returns_pure_iff.1 returned
  exact h

theorem Always.bind {between : α → Prop} {post : β → Prop} {action : TypingM α}
    {next : α → TypingM β} (first : Always between action)
    (rest : ∀ a, between a → Always post (next a)) : Always post (action >>= next) := by
  intro before b after returned
  obtain ⟨a, mid, made, returned⟩ := returns_bind_iff.1 returned
  exact rest a (first before a mid made) mid b after returned

/-- Of the result of an action nothing is said. -/
theorem Always.after {post : β → Prop} {action : TypingM α} {next : α → TypingM β}
    (rest : ∀ a, Always post (next a)) : Always post (action >>= next) :=
  Always.bind (fun _ _ _ _ => trivial) fun a (_ : True) => rest a

theorem InTurn.forall {post : β → Prop} {action : α → TypingM β} {before after : State}
    {as : List α} {bs : List β} (h : InTurn action before as bs after)
    (each : ∀ a ∈ as, Always post (action a)) : ∀ b ∈ bs, post b := by
  induction h with
  | nil => simp
  | @cons before mid after a b as bs first rest ih =>
    have rest := ih fun a hm => each a (List.mem_cons_of_mem _ hm)
    exact List.forall_mem_cons.2 ⟨each a List.mem_cons_self before b mid first, rest⟩

end

abbrev AllFlat (types : List TypeExpr) : Prop :=
  ∀ type ∈ types, Flat type

theorem allFlat_nil : AllFlat [] := by
  simp [AllFlat]

theorem allFlat_singleton {type : TypeExpr} (h : Flat type) : AllFlat [type] := by
  simpa [AllFlat] using h

theorem unsupported_flat (place : Pointer) (reason : String) :
    Always Flat (unsupported place reason) :=
  Always.after fun _ => .pure (flat_of_isSimple rfl)

theorem ambiguous_flat (place : Pointer) (reason : String) :
    Always Flat (ambiguous place reason) :=
  Always.after fun _ => .pure (flat_of_isSimple rfl)

theorem literalType_flat (place : Pointer) (value : Json) :
    Always Flat (literalType place value) := by
  unfold literalType
  split
  case h_6 | h_7 => exact unsupported_flat place _
  all_goals exact .pure (flat_of_isSimple rfl)

theorem literalTypes_flat (place : Pointer) (values : List Json) :
    Always AllFlat (literalTypes place values) := by
  induction values with
  | nil => exact .pure allFlat_nil
  | cons value rest ih =>
    exact (literalType_flat place value).bind fun type flat => ih.bind fun types others =>
      .pure (List.forall_mem_cons.2 ⟨flat, others⟩)

section
variable {node : Json} {typed : Json → Pointer → TypingM TypeExpr}

theorem coreType_flat {typeInner : TypeInner node} (place : Pointer) (core : Core (Inner node)) :
    Always Flat (coreType typeInner place core) := by
  cases core with
  | scalar kind => cases kind <;> exact .pure (flat_of_isSimple rfl)
  | array items =>
    cases items with
    | absent => exact .pure (flat_array _)
    | single inner =>
      exact Always.after fun _ => .pure (flat_array _)
    | tuple inners => exact Always.after fun _ => .pure (flat_array _)
  | object shape =>
    exact Always.after fun _ => Always.after fun _ => .pure (flat_object _)

theorem coreTypes_flat {typeInner : TypeInner node} (place : Pointer)
    (cores : List (Core (Inner node))) : Always AllFlat (coreTypes typeInner place cores) := by
  induction cores with
  | nil => exact .pure allFlat_nil
  | cons core rest ih =>
    exact (coreType_flat place core).bind fun type flat => ih.bind fun types others =>
      .pure (List.forall_mem_cons.2 ⟨flat, others⟩)

theorem baseType_flat {typeInner : TypeInner node} (place : Pointer) (base : Base (Inner node)) :
    Always Flat (baseType typeInner place base) := by
  cases base with
  | one core => exact coreType_flat place core
  | several cores =>
    exact (coreTypes_flat place cores).bind fun types flat => .pure (flat_unionOf flat)

variable (inner : ∀ (i : Inner node) place, Always Flat (typed i.node place))
include inner

theorem listed_flat {place : Pointer} {number : Nat} {inners : List (Inner node)}
    {types : List TypeExpr} {before after : State}
    (h : InTurn (fun entry => typed entry.2 entry.1) before
      (elementsAt place number (inners.map (·.node))) types after) : AllFlat types := by
  refine h.forall fun entry hm => ?_
  obtain ⟨i, -, same⟩ := List.mem_map.1 (mem_of_mem_elementsAt hm)
  rw [← same]
  exact inner i entry.1

theorem choiceUnder_flat (place : Pointer) (keyword : String)
    (inners : Option (List (Inner node))) :
    Always AllFlat (choiceUnder (fun i => typed i.node) place keyword inners) := by
  cases inners with
  | none => exact .pure allFlat_nil
  | some inners =>
    intro before types after returned
    obtain ⟨types, turn, rfl⟩ := choiceUnder_returns returned
    have flat := listed_flat inner turn
    apply allFlat_singleton
    apply flat_unionOf
    cases told : discriminator? node with
    | none =>
      rw [alternativesOf, told]
      exact flat
    | some named =>
      rw [alternativesOf_eq told]
      intro type hm
      obtain ⟨⟨schema, t⟩, member, rfl⟩ := List.mem_map.1 hm
      exact flat_taggedType (flat t (List.of_mem_zip member).2)

theorem allUnder_flat (place : Pointer) (inners : Option (List (Inner node))) :
    Always AllFlat (allUnder (fun i => typed i.node) place inners) := by
  cases inners with
  | none => exact .pure allFlat_nil
  | some inners =>
    intro before types after returned
    obtain ⟨types, mid, made, last⟩ := returns_bind_iff.1 returned
    obtain ⟨rfl, -⟩ := returns_pure_iff.1 last
    have flat := listed_flat inner (typesOfList_returns_iff.1 made)
    exact allFlat_singleton (flat_intersectionOf flat)

omit inner in
theorem baseUnder_flat (place : Pointer) (base : Option (Base (Inner node))) :
    Always AllFlat (baseUnder (fun i => typed i.node) place base) := by
  cases base with
  | none => exact .pure allFlat_nil
  | some base =>
    exact (baseType_flat place base).bind fun type flat => .pure (allFlat_singleton flat)

omit inner in
theorem notUnder_flat (place : Pointer) (schema : Option Json) :
    Always AllFlat (notUnder place schema) := by
  cases schema with
  | none => exact .pure allFlat_nil
  | some schema =>
    exact (unsupported_flat place _).bind fun type flat => .pure (allFlat_singleton flat)

theorem compositeType_flat (composition : Composition (Inner node))
    (base : Option (Base (Inner node))) (place : Pointer) :
    Always (fun result => Flat result.1)
      (compositeType (fun i => typed i.node) composition base place) := by
  intro before result after returned
  obtain ⟨parts, ⟨between, composes⟩, rfl⟩ := compositeType_returns_iff.1 returned
  apply flat_intersectionOf
  intro type hm
  simp only [Parts.types, List.mem_append] at hm
  rcases hm with (((hm | hm) | hm) | hm) | hm
  · exact baseUnder_flat place base _ _ _ composes.ofBase type hm
  · exact allUnder_flat inner place _ _ _ _ composes.ofAll type hm
  · exact choiceUnder_flat inner place "oneOf" _ _ _ _ composes.ofOne type hm
  · exact choiceUnder_flat inner place "anyOf" _ _ _ _ composes.ofAny type hm
  · exact notUnder_flat place _ _ _ _ composes.ofNot type hm

theorem shapeType_flat {follow : String → Pointer → TypingM TypeExpr}
    (followed : ∀ reference place, Always Flat (follow reference place)) (place : Pointer)
    (shape : Shape (Inner node)) :
    Always (fun result => Flat result.1)
      (shapeType (fun i => typed i.node) follow place shape) := by
  have alone {action : TypingM TypeExpr} (h : Always Flat action) :
      Always (fun result => Flat result.1) (do return (← action, false)) :=
    h.bind fun _ flat => .pure flat
  cases shape with
  | any | nothing => exact .pure (flat_of_isSimple rfl)
  | reference reference => exact alone (followed reference place)
  | enumeration values =>
    exact (literalTypes_flat place values).bind fun types flat => .pure (flat_unionOf flat)
  | enumerationWithComposition => exact alone (ambiguous_flat place _)
  | constant value => exact alone (literalType_flat place value)
  | composite composition base => exact compositeType_flat inner composition base place
  | structural base => exact alone (baseType_flat place base)
  | unsupported reason => exact alone (unsupported_flat place reason)

end

theorem withNull_flat {type : TypeExpr} (flat : Flat type) (node : Json) (place : Pointer)
    (choiceHasNull : Bool) : Always Flat (withNull node place type choiceHasNull) := by
  unfold withNull
  split
  · exact .pure flat
  · split
    · exact ambiguous_flat place _
    · apply Always.pure
      apply flat_unionOf
      intro member hm
      rcases List.mem_pair.1 hm with rfl | rfl
      · exact flat
      · exact flat_of_isSimple rfl

theorem typeOfNode_flat {follow : String → Pointer → TypingM TypeExpr}
    (followed : ∀ reference place, Always Flat (follow reference place)) (node : Json)
    (place : Pointer) : Always Flat (typeOfNode follow node place) := by
  rw [typeOfNode]
  have inner (i : Inner node) (place : Pointer) : Always Flat (typeOfNode follow i.node place) :=
    typeOfNode_flat followed i.node place
  exact (shapeType_flat inner followed place (shape node)).bind fun result flat =>
    withNull_flat flat node place result.2
termination_by sizeOf node
decreasing_by exact i.smaller

theorem promoted_flat (place : Pointer) : Always Flat (do return .ref (← promote place)) :=
  Always.after fun _ => .pure (flat_of_isSimple rfl)

theorem typeOfReference_flat (index : Index) (path : List Pointer) (reference : String)
    (place : Pointer) : Always Flat (typeOfReference index path reference place) := by
  rw [typeOfReference]
  cases index.resolve reference place with
  | error error =>
    intro before type after returned
    cases returned
  | ok target =>
    refine Always.after fun state => ?_
    cases state.names.get? target.pointer with
    | some name => exact .pure (flat_of_isSimple rfl)
    | none =>
      dsimp only
      split
      · exact promoted_flat target.pointer
      · rename_i outside
        cases state.expanded.lookup target.pointer with
        | some type =>
          dsimp only
          -- of the types recorded only short ones are repeated
          split
          · exact .pure (flat_of_isSimple ‹_›)
          · exact promoted_flat target.pointer
        | none =>
          have smaller := Index.unvisited_lt target.found
            (by simpa [Index.Target.isCycle] using outside)
          have expanded := typeOfNode_flat
            (typeOfReference_flat index (path ++ [target.pointer])) target.node target.pointer
          exact expanded.bind fun type flat => Always.after fun _ => .pure flat
termination_by index.unvisited path

/-- Whatever the state typing starts in, what it makes is flat. -/
theorem typeAt_flat (index : Index) (path : List Pointer) (node : Json) (place : Pointer) :
    Always Flat (typeAt index path node place) :=
  typeOfNode_flat (typeOfReference_flat index path) node place

end ApiTypes.Typing
