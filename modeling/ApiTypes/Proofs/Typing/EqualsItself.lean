import ApiTypes.Proofs.Reading.Printable
import ApiTypes.Proofs.Typing.Preserved

/-!
# Types that equal themselves

Equal types are one in a union, but equality of types is equality of numbers where they hold some,
and what is not a number equals nothing. Of a document with finite numbers, all types equal
themselves (`equalsItself_preserved`), so that what is added to a union again is never added twice.
-/

namespace ApiTypes.Typing

open Schema TypeExpr

/-- A type that a union holds once, however often it is added. Numbers that are not finite do not
equal themselves. -/
def EqualsItself (type : TypeExpr) : Prop :=
  type.same type = true

theorem equalsItself_literal {value : Literal} (h : Reading.FiniteLiteral value) :
    EqualsItself (.literal value) := by
  cases value with
  | number value => cases value <;> simp_all [EqualsItself, same, Literal.same, Binary64.same,
      Reading.FiniteLiteral, Binary64.isFinite]
  | _ => simp [EqualsItself, same, Literal.same]

theorem equalsItself_primitive (kind : Primitive) : EqualsItself (.primitive kind) := by
  simp [EqualsItself, same]

theorem equalsItself_unknown (note : Option String) : EqualsItself (.unknown note) := by
  simp [EqualsItself, same]

theorem equalsItself_ref (name : String) : EqualsItself (.ref name) := by
  simp [EqualsItself, same]

theorem sameTypes_self_iff {types : List TypeExpr} :
    sameTypes types types = true ↔ ∀ type ∈ types, EqualsItself type := by
  induction types with
  | nil => simp [sameTypes]
  | cons type rest ih => simp [sameTypes, ih, EqualsItself]

theorem equalsItself_union {types : List TypeExpr} :
    EqualsItself (.union types) ↔ ∀ type ∈ types, EqualsItself type := by
  rw [EqualsItself, same, sameTypes_self_iff]

theorem equalsItself_intersection {types : List TypeExpr} :
    EqualsItself (.intersection types) ↔ ∀ type ∈ types, EqualsItself type := by
  rw [EqualsItself, same, sameTypes_self_iff]

theorem equalsItself_unionOf {types : List TypeExpr} (h : ∀ type ∈ types, EqualsItself type) :
    EqualsItself (.unionOf types) := by
  have each : ∀ type ∈ dedupe (types.flatMap alternatives), EqualsItself type := by
    intro type hm
    obtain ⟨source, hs, ha⟩ := List.mem_flatMap.1 (mem_of_mem_dedupe hm)
    have := h source hs
    unfold alternatives at ha
    split at ha
    · exact equalsItself_union.1 this type ha
    · rwa [List.mem_singleton.1 ha]
  unfold unionOf
  generalize dedupe (types.flatMap alternatives) = found at each ⊢
  match found, each with
  | [], _ => exact equalsItself_primitive .never
  | [type], each => exact each type (List.mem_singleton_self _)
  | first :: second :: rest, each => exact equalsItself_union.2 each

theorem equalsItself_intersectionOf {types : List TypeExpr} (h : ∀ type ∈ types, EqualsItself type) :
    EqualsItself (.intersectionOf types) := by
  have each : ∀ type ∈ types.flatMap conjuncts, EqualsItself type := by
    intro type hm
    obtain ⟨source, hs, hc⟩ := List.mem_flatMap.1 hm
    have := h source hs
    unfold conjuncts at hc
    split at hc
    · exact equalsItself_intersection.1 this type hc
    · rwa [List.mem_singleton.1 hc]
  unfold intersectionOf
  generalize types.flatMap conjuncts = found at each ⊢
  match found, each with
  | [], _ => exact equalsItself_unknown none
  | [type], each => exact each type (List.mem_singleton_self _)
  | first :: second :: rest, each => exact equalsItself_intersection.2 each

theorem equalsItself_object {members : List Member}
    (h : ∀ member ∈ members, ∀ type ∈ member.types, EqualsItself type) :
    EqualsItself (.object members) := by
  rw [EqualsItself, same]
  induction members with
  | nil => simp [sameMembers]
  | cons member rest ih =>
    have first := h member List.mem_cons_self
    rw [sameMembers, ih fun m hm => h m (List.mem_cons_of_mem _ hm), Bool.and_true]
    cases member <;> simp_all [sameMember, Member.types, EqualsItself]

theorem equalsItself_value {state : State} {place : Pointer} {value : Json} {type : TypeExpr}
    (hv : value.Finite) (h : LiteralTyped state place value type) : EqualsItself type := by
  have printable := Reading.printable_literal hv h
  unfold LiteralTyped at h
  split at h
  case h_6 | h_7 => exact h.1 ▸ equalsItself_unknown _
  all_goals
    subst h
    cases printable with
    | literal finite => exact equalsItself_literal finite

/-- All types that typing makes of a document with finite numbers equal themselves. -/
theorem equalsItself_preserved {index : Index} {state : State} (finite : index.document.root.Finite) :
    Preserved index state EqualsItself where
  scalar kind := by
    cases kind with
    | null => exact equalsItself_literal trivial
    | string | number | integer | boolean => exact equalsItself_primitive _
  unknown := equalsItself_unknown none
  never := equalsItself_primitive .never
  undefined := equalsItself_primitive .undefined
  noted note _ := equalsItself_unknown (some note)
  value place node value type hn hl ht := equalsItself_value (Reading.finite_listed finite hn hl) ht
  named place name _ := equalsItself_ref name
  array item h := by
    rw [EqualsItself, same]
    exact h
  union types h := equalsItself_unionOf h
  intersection types h := equalsItself_intersectionOf h
  tagged property tag type h := by
    refine equalsItself_intersection.2 fun t hm => ?_
    rcases List.mem_pair.1 hm with rfl | rfl
    · refine equalsItself_object fun member hm type ht => ?_
      rw [List.mem_singleton.1 hm] at ht
      exact List.mem_singleton.1 ht ▸ equalsItself_literal trivial
    · exact h
  object keys properties signature _ hprops hsig := by
    refine equalsItself_object fun m hm type ht => ?_
    rcases List.mem_append.1 hm with hm | hm
    · obtain ⟨key, -, t, _, _, _, rfl, ht', -⟩ := exists_left_of_forall₂ hprops hm
      rwa [List.mem_singleton.1 ht]
    · obtain ⟨t, hsome, rfl⟩ := List.mem_map.1 hm
      rcases List.mem_pair.1 ht with rfl | rfl
      · exact equalsItself_primitive .string
      · exact hsig _ (by simpa using hsome)

end ApiTypes.Typing
