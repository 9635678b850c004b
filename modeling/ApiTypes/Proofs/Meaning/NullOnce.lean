import ApiTypes.Proofs.Api.WellFormed
import ApiTypes.Proofs.Meaning.Null
import ApiTypes.Proofs.Typing.Returns

/-!
# Null, once or not at all

A schema that is nullable has null among the alternatives of its type once, whatever its shape makes
of null besides: an enumeration or a kind that names it, a reference to what is nullable, a choice
deep inside. Only where a choice of the schema itself has null already, nothing is decided, and that
is reported.

* `hasNullOnce_unionOf`: null is added to a type that has it without being there twice;
* `choiceHasNull_iff`: of all shapes only a composition says that null is there already, and it does
  when one of its choices has null;
* `typeAt_settles_null`: so what becomes of null is told by the marks of the schema and the types
  made for its choices.
-/

namespace ApiTypes.Meaning

open Typing Schema TypeExpr

/-! ## Null once -/

/-- The type has null, as one of its alternatives or as all of it, and not a second time. -/
structure HasNullOnce (type : TypeExpr) : Prop where
  includes : type.includesNull = true
  once : type.alternatives.filter (·.same .null) = [.null]

/-- Distinct types have null once if they have it. -/
theorem filter_same_null {types : List TypeExpr} (distinct : types.Pairwise Differs)
    (hm : .null ∈ types) : types.filter (·.same .null) = [.null] := by
  induction types with
  | nil => cases hm
  | cons type rest ih =>
    obtain ⟨differs, distinct⟩ := List.pairwise_cons.1 distinct
    by_cases here : type = .null
    · subst here
      have others : rest.filter (·.same .null) = [] := by
        apply List.filter_eq_nil_iff.2
        intro other ho
        rw [(differs other ho).2]
        exact Bool.false_ne_true
      rw [List.filter_cons, if_pos (same_null_iff.2 rfl), others]
    · have later := (List.mem_cons.1 hm).resolve_left (Ne.symm here)
      rw [List.filter_cons, if_neg (fun same => here (same_null_iff.1 same)), ih distinct later]

theorem hasNullOnce_unionOf {types : List TypeExpr} {type : TypeExpr} (hm : type ∈ types)
    (h : .null ∈ alternatives type) : HasNullOnce (.unionOf types) := by
  have kept := null_mem_dedupe (List.mem_flatMap.2 ⟨type, hm, h⟩)
  have distinct := pairwise_dedupe (types.flatMap alternatives)
  constructor
  · exact includesNull_of_mem (null_mem_unionOf hm h)
  · unfold unionOf ofAlternatives
    split
    · rename_i empty
      rw [empty] at kept
      cases kept
    · rename_i single
      rw [single, List.mem_singleton] at kept
      rw [← kept]
      exact List.filter_cons_of_pos (same_null_iff.2 rfl)
    · exact filter_same_null distinct kept

/-! ## What becomes of null -/

/-- The schema says that null is valid besides. -/
def MarkedNullable (node : Json) : Prop :=
  node.get? "nullable" = some (.bool true) ∨ node.get? "x-nullable" = some (.bool true)

theorem isNullable_iff {node : Json} : isNullable node = true ↔ MarkedNullable node := by
  rw [isNullable, Bool.or_eq_true, Json.flag_iff, Json.flag_iff]
  rfl

section
variable (index : Index) (path : List Pointer) (node : Json) (place : Pointer)

/-- The schema is a composition, and of the types made for its `oneOf` and `anyOf` on the way from
one state to the other, one has null. -/
def ChoosesNull (before after : State) : Prop :=
  ∃ composition base parts, shape node = .composite composition base ∧
    Composes (innerAt index path) composition base place before parts after ∧
    ∃ choice ∈ parts.choices, choice.includesNull = true

/-- What becomes of null in the type of a schema. Its shape has the type `bare`, made on the way
from the state `before` to the state `mid`. -/
structure NullSettled (before mid after : State) (bare type : TypeExpr) : Prop where
  /-- Null is not added to what is not nullable. -/
  plain : ¬MarkedNullable node → type = bare ∧ after = mid
  /-- To what is nullable it is added, if it is not there. -/
  once : MarkedNullable node → ¬ChoosesNull index path node place before mid →
    type = .unionOf [bare, .null] ∧ HasNullOnce type ∧ after = mid
  /-- A nullable choice with null has no agreed meaning. -/
  reported : MarkedNullable node → ChoosesNull index path node place before mid →
    type = .unknown (some alreadyNull) ∧
      after = { mid with
        warnings := mid.warnings ++ [⟨.ambiguousShape, some place, alreadyNull⟩] }

end

section
variable {index : Index} {path : List Pointer} {node : Json} {place : Pointer}
  {before after : State}

/-- Only the types of choices tell whether null is there already. -/
theorem choiceHasNull_iff {bare : TypeExpr} {choiceHasNull : Bool}
    (h : Returns (shapeType (innerAt index path) (typeOfReference index path) place (shape node))
      before (bare, choiceHasNull) after) :
    choiceHasNull = true ↔ ChoosesNull index path node place before after := by
  constructor
  · rintro rfl
    cases shape : shape node with
    | composite composition base =>
      rw [shape] at h
      obtain ⟨parts, made, same⟩ := compositeType_returns_iff.1 h
      have has := (congrArg Prod.snd same).symm
      exact ⟨composition, base, parts, shape, made, List.any_eq_true.1 has⟩
    | any | nothing =>
      rw [shape] at h
      cases h
    | _ =>
      rw [shape] at h
      obtain ⟨type, mid, -, rest⟩ := returns_bind_iff.1 h
      cases rest
  · rintro ⟨composition, base, parts, composite, made, has⟩
    rw [composite] at h
    have again := compositeType_returns_iff.2 ⟨parts, made, rfl⟩
    have same := (Prod.mk.inj (Except.ok.inj (Prod.mk.inj (Eq.trans h.symm again)).1)).2
    rw [same]
    exact List.any_eq_true.2 has

/-- What becomes of null when a schema is typed, in whatever state. -/
theorem typeAt_settles_null {type : TypeExpr}
    (h : Returns (typeAt index path node place) before type after) :
    ∃ bare choiceHasNull mid,
      Returns (shapeType (innerAt index path) (typeOfReference index path) place (shape node))
        before (bare, choiceHasNull) mid ∧
      NullSettled index path node place before mid after bare type := by
  obtain ⟨bare, choiceHasNull, mid, made, last⟩ := typeAt_returns_iff.1 h
  refine ⟨bare, choiceHasNull, mid, made, ?_⟩
  have has := choiceHasNull_iff made
  rcases withNull_returns last with ⟨plain, rfl, rfl⟩ | ⟨nullable, none, rfl, rfl⟩ |
    ⟨nullable, some, note, rfl, rfl, rfl⟩
  · have unmarked : ¬MarkedNullable node := by
      rw [← isNullable_iff, plain]
      exact Bool.false_ne_true
    exact {
      plain := fun _ => ⟨rfl, rfl⟩
      once := fun marked => absurd marked unmarked
      reported := fun marked => absurd marked unmarked }
  · have unchosen : ¬ChoosesNull index path node place before after := by
      rw [← has, none]
      exact Bool.false_ne_true
    have added : HasNullOnce (.unionOf [bare, .null]) :=
      hasNullOnce_unionOf (List.mem_cons_of_mem _ List.mem_cons_self) (List.mem_singleton_self _)
    exact {
      plain := fun unmarked => absurd (isNullable_iff.1 nullable) unmarked
      once := fun _ _ => ⟨rfl, added, rfl⟩
      reported := fun _ chosen => absurd chosen unchosen }
  · exact {
      plain := fun unmarked => absurd (isNullable_iff.1 nullable) unmarked
      once := fun _ unchosen => absurd (has.1 some) unchosen
      reported := fun _ _ => ⟨rfl, rfl⟩ }

end

/-- A nullable schema that is nothing but a choice deep inside, which names null too. -/
def deepChoice : Json :=
  .object [("nullable", .bool true), ("allOf", .array [
    .object [("oneOf", .array [
      .object [("type", .string "string"), ("x-nullable", .bool true)],
      .object [("type", .string "null")]])]])]

/-- Null comes from three places, and is one of two alternatives. -/
theorem typeAt_settles_null_deepChoice :
    ∃ type after, Returns (typeAt ⟨.ofJson deepChoice, none⟩ [] deepChoice .root) { names := {} }
        type after ∧ type.same (.union [.string, .null]) = true ∧
      ∃ bare choiceHasNull mid,
        Returns (shapeType (innerAt ⟨.ofJson deepChoice, none⟩ [])
            (typeOfReference ⟨.ofJson deepChoice, none⟩ []) .root (shape deepChoice))
          { names := {} } (bare, choiceHasNull) mid ∧
        NullSettled ⟨.ofJson deepChoice, none⟩ [] deepChoice .root { names := {} } mid after bare
          type := by
  obtain ⟨type, after, made, same⟩ := exists_returns
    (typeAt ⟨.ofJson deepChoice, none⟩ [] deepChoice .root) { names := {} }
    (·.same (.union [.string, .null])) (by decide +kernel)
  exact ⟨type, after, made, same, typeAt_settles_null made⟩

end ApiTypes.Meaning
