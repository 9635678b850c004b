import ApiTypes.Proofs.Meaning.Soundness

/-!
# Null among alternatives

Whether null is among the alternatives of a choice is read off their types, so it may depend on
what becomes of references. A schema shows null when it does not (`ShowsNull`):

* `null_of_shown`: then every type made of the schema has null among its alternatives;
* `choiceHasNull_of_shown`: so every type made of a choice with such an alternative counts as one
  that allows null.
-/

namespace ApiTypes.Meaning

open Typing Schema TypeExpr

/-- What is said of a nullable choice that has null among its alternatives. -/
def alreadyNull : String :=
  "`nullable` combined with a `oneOf`/`anyOf` that already allows null"

/-- Null is one of the values or kinds that a shape names. -/
def NamesNull {node : Json} : Shape (Inner node) → Prop
  | .enumeration values => .null ∈ values
  | .constant value => value = .null
  | .structural (.one core) => core = .scalar .null
  | .structural (.several cores) => .scalar .null ∈ cores
  | _ => False

/-- A composition of nothing but one choice. -/
def IsChoice {node : Json} (composition : Composition (Inner node)) (inners : List (Inner node)) :
    Prop :=
  composition.allOf = none ∧ composition.not = none ∧
    (composition.oneOf = some inners ∧ composition.anyOf = none ∨
      composition.oneOf = none ∧ composition.anyOf = some inners)

/-- Null is among the alternatives of a schema's type whatever becomes of references: the schema
names null, is nullable, or is a choice with an alternative that shows null. -/
inductive ShowsNull : Json → Prop
  | named {node : Json} (named : NamesNull (shape node)) : ShowsNull node
  -- a nullable reference is left out: as an alternative it may be tagged, and then its type is an
  -- intersection
  | nullable {node : Json} (nullable : isNullable node = true)
      (plain : ∀ reference, shape node ≠ .reference reference)
      (single : ∀ composition base, shape node ≠ .composite composition base) : ShowsNull node
  | choice {node : Json} {composition : Composition (Inner node)} {inners : List (Inner node)}
      {inner : Inner node} (composite : shape node = .composite composition none)
      (choice : IsChoice composition inners) (member : inner ∈ inners)
      (shows : ShowsNull inner.node) (notNullable : isNullable node = false) : ShowsNull node

/-- One of the alternatives of a choice shows null by itself. -/
def NullShown (node : Json) : Prop :=
  ∃ composition base inners inner, shape node = .composite composition base ∧
    (composition.oneOf = some inners ∨ composition.anyOf = some inners) ∧ inner ∈ inners ∧
    ShowsNull inner.node

/-! ## Types with null -/

theorem null_mem_of_eq {type : TypeExpr} (h : type = .null) : .null ∈ alternatives type := by
  rw [h]
  exact List.mem_singleton_self _

/-- Only null itself is equal to null. -/
theorem same_null_iff {type : TypeExpr} : type.same .null = true ↔ type = .null := by
  constructor
  · intro h
    cases type <;> simp [TypeExpr.same, TypeExpr.null] at h
    rename_i literal
    cases literal <;> simp [Literal.same] at h
    rfl
  · rintro rfl
    simp [TypeExpr.same, TypeExpr.null, Literal.same]

theorem null_mem_dedupe {types : List TypeExpr} (hm : .null ∈ types) : .null ∈ dedupe types := by
  obtain ⟨kept, hk, rfl | same⟩ := exists_kept hm
  · exact hk
  · exact same_null_iff.1 same ▸ hk

theorem null_mem_unionOf {types : List TypeExpr} {type : TypeExpr} (hm : type ∈ types)
    (h : .null ∈ alternatives type) : .null ∈ alternatives (unionOf types) := by
  have kept := null_mem_dedupe (List.mem_flatMap.2 ⟨type, hm, h⟩)
  unfold unionOf ofAlternatives
  split
  · rename_i empty
    rw [empty] at kept
    cases kept
  · rename_i single
    rw [single, List.mem_singleton] at kept
    rw [← kept]
    exact List.mem_singleton_self _
  · exact kept

theorem anyIncludesNull_of_mem {types : List TypeExpr} (hm : .null ∈ types) :
    anyIncludesNull types = true := by
  induction types with
  | nil => cases hm
  | cons type rest ih =>
    rw [anyIncludesNull, Bool.or_eq_true]
    rcases List.mem_cons.1 hm with rfl | hm
    · exact .inl rfl
    · exact .inr (ih hm)

theorem includesNull_of_mem {type : TypeExpr} (h : .null ∈ alternatives type) :
    type.includesNull = true := by
  cases type with
  | union types => exact anyIncludesNull_of_mem h
  | _ =>
    rw [← List.mem_singleton.1 h]
    rfl

/-- A type with null among its alternatives is no intersection. -/
theorem intersectionOf_of_null {type : TypeExpr} (h : .null ∈ alternatives type) :
    intersectionOf [type] = type := by
  cases type with
  | intersection types => cases List.mem_singleton.1 h
  | _ => rfl

/-! ## Types of schemas that show null -/

theorem ShowsNull.no_reference {node : Json} (h : ShowsNull node) : reference? node = none := by
  rw [Option.eq_none_iff_forall_ne_some]
  intro reference refers
  have shape := shape_of_reference refers
  cases h with
  | named named =>
    rw [shape] at named
    exact named
  | nullable _ plain _ => exact plain reference shape
  | choice composite =>
    rw [shape] at composite
    cases composite

section
variable {index : Index} {state : State} {node : Json} {place : Pointer}

theorem null_of_named {typed : InnerTyped node} {shape : Shape (Inner node)} {type : TypeExpr}
    {choiceHasNull : Bool} (named : NamesNull shape)
    (h : ShapeTyped typed place index state shape type choiceHasNull) :
    .null ∈ alternatives type := by
  cases shape with
  | enumeration values =>
    obtain ⟨⟨types, literals, rfl⟩, -⟩ := h
    obtain ⟨type, hm, typed⟩ := exists_right_of_forall₂ literals named
    exact null_mem_unionOf hm (null_mem_of_eq typed)
  | constant value =>
    have null : value = .null := named
    subst null
    exact null_mem_of_eq h.1
  | structural base =>
    cases base with
    | one core =>
      have scalar : core = .scalar .null := named
      subst scalar
      exact null_mem_of_eq h.1
    | several cores =>
      obtain ⟨⟨types, kinds, rfl⟩, -⟩ := h
      obtain ⟨type, hm, typed⟩ := exists_right_of_forall₂ kinds named
      exact null_mem_unionOf hm (null_mem_of_eq typed)
  | _ => exact named.elim

theorem choiceHasNull_of_single {typed : InnerTyped node} {shape : Shape (Inner node)}
    {type : TypeExpr} {choiceHasNull : Bool}
    (single : ∀ composition base, shape ≠ .composite composition base)
    (h : ShapeTyped typed place index state shape type choiceHasNull) : choiceHasNull = false := by
  cases shape with
  | composite composition base => exact absurd rfl (single composition base)
  | _ => exact h.2

theorem null_of_nullable {bare type : TypeExpr} (nullable : isNullable node = true)
    (h : NullTyped state node place bare false type) : .null ∈ alternatives type := by
  unfold NullTyped at h
  rw [if_pos nullable] at h
  have union : type = unionOf [bare, .null] := h
  rw [union]
  exact null_mem_unionOf (List.mem_pair.2 (.inr rfl)) (null_mem_of_eq rfl)

theorem mem_alternativesOf {R : Inner node → TypeExpr → Prop} {inners : List (Inner node)}
    {types : List TypeExpr} (h : List.Forall₂ R inners types) {inner : Inner node}
    (hm : inner ∈ inners) (plain : reference? inner.node = none) :
    ∃ type ∈ alternativesOf node inners types, R inner type := by
  unfold alternativesOf
  split
  · exact exists_right_of_forall₂ h hm
  · rename_i property mapping _
    obtain ⟨type, -, related, hz⟩ := exists_mem_zipWith
      (fun (i : Inner node) type => taggedType property mapping i.node type) h hm
    have untagged : taggedType property mapping inner.node type = type := by
      simp only [taggedType, plain, Option.bind_none]
    exact ⟨type, untagged ▸ hz, related⟩

/-- The type of a choice has null among its alternatives when one of the members' types has. -/
theorem null_of_member {typed : InnerTyped node} {keyword : String} {inners : List (Inner node)}
    {types : List TypeExpr} {inner : Inner node} (hm : inner ∈ inners)
    (plain : reference? inner.node = none)
    (null : ∀ place type, typed inner place type → .null ∈ alternatives type)
    (h : ChoiceUnderTyped typed place keyword (some inners) types) :
    ∃ choice, types = [choice] ∧ .null ∈ alternatives choice := by
  obtain ⟨ts, list, rfl⟩ := h
  obtain ⟨t, ht, p, typed⟩ := mem_alternativesOf list.forall₂ hm plain
  exact ⟨_, rfl, null_mem_unionOf ht (null p t typed)⟩

/-- A schema that shows null has null among the alternatives of every type made of it. -/
theorem null_of_shown (shows : ShowsNull node) :
    ∀ {place : Pointer} {type : TypeExpr}, NodeTyped index state node place type →
      .null ∈ alternatives type := by
  induction shows with
  | @named node named =>
    intro place type h
    obtain ⟨bare, choiceHasNull, made, null⟩ := nodeTyped_iff.1 h
    by_cases nullable : isNullable node = true
    · have single : choiceHasNull = false := by
        refine choiceHasNull_of_single (fun composition base composite => ?_) made
        rw [composite] at named
        exact named
      subst single
      exact null_of_nullable nullable null
    · unfold NullTyped at null
      rw [if_neg nullable] at null
      rw [null]
      exact null_of_named named made
  | nullable nullable _ single =>
    intro place type h
    obtain ⟨bare, choiceHasNull, made, null⟩ := nodeTyped_iff.1 h
    have none := choiceHasNull_of_single single made
    subst none
    exact null_of_nullable nullable null
  | @choice node composition inners inner composite choice member shows notNullable ih =>
    intro place type h
    obtain ⟨bare, choiceHasNull, made, null⟩ := nodeTyped_iff.1 h
    unfold NullTyped at null
    rw [if_neg (by simp [notNullable])] at null
    subst null
    rw [composite] at made
    obtain ⟨ofBase, ofAll, ofOne, ofAny, ofNot, base, all, one, any, not, rfl, -⟩ := made
    obtain ⟨noAll, noNot, keyword⟩ := choice
    rw [noAll] at all
    rw [noNot] at not
    rw [show ofBase = [] from base, show ofAll = [] from all, show ofNot = [] from not]
    rcases keyword with ⟨isOne, noAny⟩ | ⟨noOne, isAny⟩
    · rw [isOne] at one
      rw [noAny] at any
      obtain ⟨whole, rfl, null⟩ := null_of_member member shows.no_reference (fun _ _ => ih) one
      rw [show ofAny = [] from any]
      exact (intersectionOf_of_null null).symm ▸ null
    · rw [noOne] at one
      rw [isAny] at any
      obtain ⟨whole, rfl, null⟩ := null_of_member member shows.no_reference (fun _ _ => ih) any
      rw [show ofOne = [] from one]
      exact (intersectionOf_of_null null).symm ▸ null

/-- A choice with an alternative that shows null has null among its alternatives in every type
made of it. -/
theorem choiceHasNull_of_shown (shown : NullShown node) {type : TypeExpr} {choiceHasNull : Bool}
    (h : ShapeTyped (fun (i : Inner node) => NodeTyped index state i.node) place index state
      (shape node) type choiceHasNull) : choiceHasNull = true := by
  obtain ⟨composition, base, inners, inner, composite, keyword, hm, shows⟩ := shown
  rw [composite] at h
  obtain ⟨_, _, ofOne, ofAny, _, -, -, one, any, -, -, rfl⟩ := h
  have under {word : String} {types : List TypeExpr}
      (h : ChoiceUnderTyped (fun (i : Inner node) => NodeTyped index state i.node) place word
        (some inners) types) : types.any includesNull = true := by
    obtain ⟨choice, rfl, null⟩ :=
      null_of_member hm shows.no_reference (fun _ _ => null_of_shown shows) h
    rw [List.any_cons, includesNull_of_mem null, Bool.true_or]
  rw [List.any_append, Bool.or_eq_true]
  rcases keyword with keyword | keyword
  · rw [keyword] at one
    exact .inl (under one)
  · rw [keyword] at any
    exact .inr (under any)

end

end ApiTypes.Meaning
