import ApiTypes.Proofs.Meaning.Interpretation
import ApiTypes.Proofs.TypeExpr.WellFormed
import ApiTypes.Proofs.Typing.EqualsItself

/-!
# Putting types together in steps

Unions are put together by taking the unions among the types apart and leaving out what equals an
earlier type. Neither loses or adds a value, and it makes no difference in how many steps it is
done, as long as taking apart one level deep is enough.

* `inhabits_unionOf_iff`, `inhabits_intersectionOf_iff`: the values of a union are those of one of
  the types, the values of an intersection those of all;
* `dedupe_append`: what is left of a list without repetitions stands for the list;
* `unionOf_cons_unionOf`, `intersectionOf_cons_intersectionOf`: so some of the types may be put
  together first;
* `unionOf_intersectionOf_laws`: all of it, with equality as the program decides it where no number
  is one that differs from itself.
-/

namespace ApiTypes.Meaning

open Typing TypeExpr

/-! ## Values -/

section
variable {declarations : List Declaration} {types : List TypeExpr} {value : Json}

theorem inhabits_unionOf_iff : Inhabits declarations (unionOf types) value ↔
    ∃ type ∈ types, Inhabits declarations type value := by
  constructor
  · intro h
    obtain ⟨type, hm, inside⟩ := exists_of_unionOf (inhabits_iff.1 h)
    exact ⟨type, hm, inhabits_iff.2 inside⟩
  · rintro ⟨type, hm, inside⟩
    exact inhabits_unionOf hm inside

theorem inhabits_intersectionOf_iff : Inhabits declarations (intersectionOf types) value ↔
    ∀ type ∈ types, Inhabits declarations type value := by
  constructor
  · intro h type hm
    exact inhabits_iff.2 (all_of_intersectionOf (inhabits_iff.1 h) type hm)
  · exact inhabits_intersectionOf

end

/-! ## Repetitions -/

/-- Types that differ from all before them are all added. -/
theorem foldl_insertNew_of_pairwise {types start : List TypeExpr}
    (distinct : (start ++ types).Pairwise Differs) :
    types.foldl insertNew start = start ++ types := by
  induction types generalizing start with
  | nil => exact (List.append_nil start).symm
  | cons type rest ih =>
    have new : start.any (·.same type) = false := by
      rw [List.any_eq_false]
      intro earlier hm
      rw [((List.pairwise_append.1 distinct).2.2 earlier hm type List.mem_cons_self).1]
      exact Bool.false_ne_true
    have added : insertNew start type = start ++ [type] := by
      rw [insertNew, new]
      rfl
    rw [List.append_cons] at distinct
    rw [List.foldl_cons, added, ih distinct, ← List.append_cons]

theorem dedupe_dedupe (types : List TypeExpr) : dedupe (dedupe types) = dedupe types :=
  @foldl_insertNew_of_pairwise (dedupe types) [] (pairwise_dedupe types)

theorem dedupe_append (types others : List TypeExpr) :
    dedupe (dedupe types ++ others) = dedupe (types ++ others) := by
  have again := dedupe_dedupe types
  unfold dedupe at again ⊢
  rw [List.foldl_append, List.foldl_append, again]

theorem dedupe_ne_nil {types : List TypeExpr} (nonempty : types ≠ []) : dedupe types ≠ [] := by
  obtain ⟨type, hm⟩ := List.exists_mem_of_ne_nil types nonempty
  obtain ⟨kept, hk, -⟩ := exists_kept hm
  exact List.ne_nil_of_mem hk

/-! ## Unions and intersections in one another -/

/-- A union, if it is one, is of two types or more, and of no union directly. -/
def FlatUnion (type : TypeExpr) : Prop :=
  ∀ types, type = .union types → 2 ≤ types.length ∧ ∀ inner ∈ types, inner.isUnion = false

/-- An intersection, if it is one, is of two types or more, and of no intersection directly. -/
def FlatIntersection (type : TypeExpr) : Prop :=
  ∀ types, type = .intersection types →
    2 ≤ types.length ∧ ∀ inner ∈ types, inner.isIntersection = false

theorem FlatUnion.alternatives {type : TypeExpr} (h : FlatUnion type) :
    type.alternatives ≠ [] ∧ ∀ inner ∈ type.alternatives, inner.isUnion = false := by
  cases hu : type.isUnion with
  | true =>
    cases type with
    | union types =>
      obtain ⟨several, flat⟩ := h types rfl
      exact ⟨List.ne_nil_of_length_pos (Nat.zero_lt_of_lt several), flat⟩
    | _ => cases hu
  | false =>
    rw [alternatives_of_not_union hu]
    exact ⟨List.cons_ne_nil _ _, fun inner hm => List.mem_singleton.1 hm ▸ hu⟩

theorem FlatIntersection.conjuncts {type : TypeExpr} (h : FlatIntersection type) :
    type.conjuncts ≠ [] ∧ ∀ inner ∈ type.conjuncts, inner.isIntersection = false := by
  cases hi : type.isIntersection with
  | true =>
    cases type with
    | intersection types =>
      obtain ⟨several, flat⟩ := h types rfl
      exact ⟨List.ne_nil_of_length_pos (Nat.zero_lt_of_lt several), flat⟩
    | _ => cases hi
  | false =>
    rw [conjuncts_of_not_intersection hi]
    exact ⟨List.cons_ne_nil _ _, fun inner hm => List.mem_singleton.1 hm ▸ hi⟩

section
variable {types : List TypeExpr} (nonempty : types ≠ []) (others : List TypeExpr)
include nonempty

/-- A union of some of the types takes their place. -/
theorem unionOf_cons_unionOf (flat : ∀ type ∈ types, FlatUnion type) :
    unionOf (unionOf types :: others) = unionOf (types ++ others) := by
  have found : dedupe (types.flatMap alternatives) ≠ [] :=
    dedupe_ne_nil (flatMap_ne_nil nonempty fun type hm => (flat type hm).alternatives.1)
  have apart : ∀ type ∈ dedupe (types.flatMap alternatives), type.isUnion = false := by
    intro type hm
    obtain ⟨source, hs, ha⟩ := List.mem_flatMap.1 (mem_of_mem_dedupe hm)
    exact (flat source hs).alternatives.2 type ha
  have inner : alternatives (unionOf types) = dedupe (types.flatMap alternatives) :=
    alternatives_ofAlternatives found apart
  calc unionOf (unionOf types :: others)
      = ofAlternatives (dedupe (alternatives (unionOf types) ++ others.flatMap alternatives)) := rfl
    _ = ofAlternatives (dedupe (types.flatMap alternatives ++ others.flatMap alternatives)) := by
      rw [inner, dedupe_append]
    _ = unionOf (types ++ others) := by rw [← List.flatMap_append, unionOf]

/-- An intersection of some of the types takes their place. -/
theorem intersectionOf_cons_intersectionOf (flat : ∀ type ∈ types, FlatIntersection type) :
    intersectionOf (intersectionOf types :: others) = intersectionOf (types ++ others) := by
  have found : types.flatMap conjuncts ≠ [] :=
    flatMap_ne_nil nonempty fun type hm => (flat type hm).conjuncts.1
  have apart : ∀ type ∈ types.flatMap conjuncts, type.isIntersection = false := by
    intro type hm
    obtain ⟨source, hs, hc⟩ := List.mem_flatMap.1 hm
    exact (flat source hs).conjuncts.2 type hc
  have inner : conjuncts (intersectionOf types) = types.flatMap conjuncts :=
    conjuncts_ofConjuncts found apart
  calc intersectionOf (intersectionOf types :: others)
      = ofConjuncts (conjuncts (intersectionOf types) ++ others.flatMap conjuncts) := rfl
    _ = intersectionOf (types ++ others) := by rw [inner, ← List.flatMap_append, intersectionOf]

end

/-! ## Types that equal themselves -/

/-- No literal in the type is what is not a number. -/
def WithoutNaN (type : TypeExpr) : Prop :=
  ¬Occurs (.literal (.number .nan)) type

theorem equalsItself_of_withoutNaN (type : TypeExpr) (h : WithoutNaN type) :
    EqualsItself type := by
  match type with
  | .primitive kind => exact equalsItself_primitive kind
  | .ref name => exact equalsItself_ref name
  | .unknown note => exact equalsItself_unknown note
  | .literal value =>
    cases value with
    | number value =>
      cases value with
      | nan => exact absurd .here h
      | _ => simp [EqualsItself, same, Literal.same, Binary64.same]
    | _ => simp [EqualsItself, same, Literal.same]
  | .array item =>
    have inner := equalsItself_of_withoutNaN item fun inside => h (.item inside)
    rw [EqualsItself, same]
    exact inner
  | .union types =>
    refine equalsItself_union.2 fun inner hm => ?_
    exact equalsItself_of_withoutNaN inner fun inside => h (.alternative hm inside)
  | .intersection types =>
    refine equalsItself_intersection.2 fun inner hm => ?_
    exact equalsItself_of_withoutNaN inner fun inside => h (.conjunct hm inside)
  | .object members =>
    refine equalsItself_object fun member hm inner ht => ?_
    exact equalsItself_of_withoutNaN inner fun inside => h (occurs_of_mem_types hm ht inside)
termination_by sizeOf type
decreasing_by
  · simp only [array.sizeOf_spec]
    omega
  · have := List.sizeOf_lt_of_mem hm
    simp only [union.sizeOf_spec]
    omega
  · have := List.sizeOf_lt_of_mem hm
    simp only [intersection.sizeOf_spec]
    omega
  · have := List.sizeOf_lt_of_mem hm
    have := sizeOf_of_mem_types ht
    simp only [object.sizeOf_spec]
    omega

/-! ## The laws -/

/-- The values of a union are those of one of the types, and there are none of no types; the values
of an intersection are those of all of the types, and there are all of no types. Types that are put
together first, if there are any, may as well be put together with the others, and the two results
are equal for the program too when it can compare their numbers. -/
theorem unionOf_intersectionOf_laws (declarations : List Declaration)
    (types others : List TypeExpr) (value : Json) :
    (Inhabits declarations (unionOf types) value ↔
      ∃ type ∈ types, Inhabits declarations type value) ∧
    (Inhabits declarations (intersectionOf types) value ↔
      ∀ type ∈ types, Inhabits declarations type value) ∧
    unionOf [] = .never ∧ intersectionOf [] = .unknown none ∧
    (types ≠ [] → (∀ type ∈ types, FlatUnion type) →
      unionOf (unionOf types :: others) = unionOf (types ++ others) ∧
      ((∀ type ∈ types ++ others, WithoutNaN type) →
        (unionOf (unionOf types :: others)).same (unionOf (types ++ others)) = true)) ∧
    (types ≠ [] → (∀ type ∈ types, FlatIntersection type) →
      intersectionOf (intersectionOf types :: others) = intersectionOf (types ++ others) ∧
      ((∀ type ∈ types ++ others, WithoutNaN type) →
        (intersectionOf (intersectionOf types :: others)).same
          (intersectionOf (types ++ others)) = true)) := by
  refine ⟨inhabits_unionOf_iff, inhabits_intersectionOf_iff, rfl, rfl, ?_, ?_⟩
  · intro nonempty flat
    have regrouped := unionOf_cons_unionOf nonempty others flat
    refine ⟨regrouped, fun numbers => ?_⟩
    rw [regrouped]
    exact equalsItself_unionOf fun type hm => equalsItself_of_withoutNaN type (numbers type hm)
  · intro nonempty flat
    have regrouped := intersectionOf_cons_intersectionOf nonempty others flat
    refine ⟨regrouped, fun numbers => ?_⟩
    rw [regrouped]
    exact equalsItself_intersectionOf fun type hm =>
      equalsItself_of_withoutNaN type (numbers type hm)

/-- A text or null, or what is of two declared types. -/
def firstTypes : List TypeExpr :=
  [.union [.string, .null], .intersection [.ref "Pet", .ref "Tag"]]

/-- Null once more, and zero twice, once as a negative one. -/
def laterTypes : List TypeExpr :=
  [.null, .literal (.number (.finite true .zero)), .literal (.number (.finite false .zero))]

/-- Put together first or not, null and zero stay once. -/
theorem unionOf_intersectionOf_laws_firstTypes :
    firstTypes ≠ [] ∧ (∀ type ∈ firstTypes, FlatUnion type) ∧
      (∀ type ∈ firstTypes, FlatIntersection type) ∧
      (∀ type ∈ firstTypes ++ laterTypes, WithoutNaN type) ∧
    Inhabits [] (unionOf firstTypes) .null ∧
    (unionOf (unionOf firstTypes :: laterTypes)).same (.union [.string, .null,
      .intersection [.ref "Pet", .ref "Tag"], .literal (.number (.finite true .zero))]) = true ∧
    (unionOf (unionOf firstTypes :: laterTypes)).same
      (unionOf (firstTypes ++ laterTypes)) = true ∧
    intersectionOf (intersectionOf firstTypes :: laterTypes) =
      intersectionOf (firstTypes ++ laterTypes) := by
  have nonempty : firstTypes ≠ [] := by decide
  have unions : ∀ type ∈ firstTypes, FlatUnion type := by
    intro type hm types same
    rcases List.mem_pair.1 hm with rfl | rfl
    · cases same
      decide
    · cases same
  have intersections : ∀ type ∈ firstTypes, FlatIntersection type := by
    intro type hm types same
    rcases List.mem_pair.1 hm with rfl | rfl
    · cases same
    · cases same
      decide
  have numbers : ∀ type ∈ firstTypes ++ laterTypes, WithoutNaN type := by
    intro type hm inside
    simp only [firstTypes, laterTypes, List.cons_append, List.nil_append, List.mem_cons,
      List.not_mem_nil, or_false] at hm
    rcases hm with rfl | rfl | rfl | rfl | rfl
    · cases inside with
      | alternative member inside => rcases List.mem_pair.1 member with rfl | rfl <;> cases inside
    · cases inside with
      | conjunct member inside => rcases List.mem_pair.1 member with rfl | rfl <;> cases inside
    all_goals cases inside
  obtain ⟨values, -, -, -, union, intersection⟩ :=
    unionOf_intersectionOf_laws [] firstTypes laterTypes .null
  obtain ⟨regrouped, equal⟩ := union nonempty unions
  refine ⟨nonempty, unions, intersections, numbers, values.2 ?_, ?_, equal numbers,
    (intersection nonempty intersections).1⟩
  · exact ⟨_, List.mem_cons_self, .union (List.mem_cons_of_mem _ List.mem_cons_self) .literalNull⟩
  · rw [regrouped]
    decide +kernel

end ApiTypes.Meaning
