import ApiTypes.Proofs.Finite
import ApiTypes.Proofs.Name
import ApiTypes.Proofs.Reading.Parser
import ApiTypes.Proofs.TypeExpr.Occurs
import ApiTypes.Proofs.Typing.Preserved
import ApiTypes.TypeExpr.Printer

/-!
# Printable types

What has to hold of a type for its text to be read back: numbers are finite, references go to names
that are no words of the language, unions and intersections are of several types and no union
stands in a union. Typing makes no others (`printable_preserved`).
-/

namespace ApiTypes.Reading

open TypeExpr

/-- A literal that is no infinite number and not what is not a number. -/
def FiniteLiteral : Literal → Prop
  | .number value => value.isFinite = true
  | _ => True

def DocumentedMember : Member → Prop
  | .property _ _ _ _ doc => Typing.Documented doc
  | .index _ _ => True

inductive Printable : TypeExpr → Prop
  | primitive (kind : Primitive) : Printable (.primitive kind)
  | literal {value : Literal} (finite : FiniteLiteral value) : Printable (.literal value)
  | ref {name : String} (shaped : Text.TypeName name) : Printable (.ref name)
  | unknown (note : Option String) : Printable (.unknown note)
  | array {item : TypeExpr} (inner : Printable item) : Printable (.array item)
  | object {members : List Member} (documented : ∀ m ∈ members, DocumentedMember m)
      (inner : ∀ m ∈ members, ∀ type ∈ m.types, Printable type) : Printable (.object members)
  | union {types : List TypeExpr} (several : 2 ≤ types.length)
      (flat : ∀ type ∈ types, type.isUnion = false) (inner : ∀ type ∈ types, Printable type) :
      Printable (.union types)
  | intersection {types : List TypeExpr} (several : 2 ≤ types.length)
      (inner : ∀ type ∈ types, Printable type) : Printable (.intersection types)

/-! ## Building unions and intersections -/

theorem Printable.of_alternative {type alternative : TypeExpr} (h : Printable type)
    (hm : alternative ∈ type.alternatives) :
    Printable alternative ∧ alternative.isUnion = false := by
  cases hu : type.isUnion with
  | true =>
    cases h with
    | union several flat inner => exact ⟨inner _ hm, flat _ hm⟩
    | _ => cases hu
  | false =>
    rw [alternatives_of_not_union hu, List.mem_singleton] at hm
    exact hm ▸ ⟨h, hu⟩

theorem Printable.of_conjunct {type conjunct : TypeExpr} (h : Printable type)
    (hm : conjunct ∈ type.conjuncts) : Printable conjunct := by
  cases hi : type.isIntersection with
  | true =>
    cases h with
    | intersection several inner => exact inner _ hm
    | _ => cases hi
  | false =>
    rw [conjuncts_of_not_intersection hi, List.mem_singleton] at hm
    exact hm ▸ h

theorem printable_unionOf {types : List TypeExpr} (h : ∀ type ∈ types, Printable type) :
    Printable (.unionOf types) := by
  have each : ∀ type ∈ dedupe (types.flatMap alternatives),
      Printable type ∧ type.isUnion = false := by
    intro type hm
    obtain ⟨source, hs, ha⟩ := List.mem_flatMap.1 (mem_of_mem_dedupe hm)
    exact (h source hs).of_alternative ha
  unfold unionOf
  generalize dedupe (types.flatMap alternatives) = distinct at each ⊢
  match distinct, each with
  | [], _ => exact .primitive .never
  | [type], each => exact (each type (List.mem_singleton_self _)).1
  | first :: second :: rest, each =>
    exact .union (by simp) (fun type hm => (each type hm).2) (fun type hm => (each type hm).1)

theorem printable_intersectionOf {types : List TypeExpr} (h : ∀ type ∈ types, Printable type) :
    Printable (.intersectionOf types) := by
  have each : ∀ type ∈ types.flatMap conjuncts, Printable type := by
    intro type hm
    obtain ⟨source, hs, hc⟩ := List.mem_flatMap.1 hm
    exact (h source hs).of_conjunct hc
  unfold intersectionOf
  generalize types.flatMap conjuncts = all at each ⊢
  match all, each with
  | [], _ => exact .unknown none
  | [type], each => exact each type (List.mem_singleton_self _)
  | first :: second :: rest, each => exact .intersection (by simp) each

/-! ## Building objects -/

/-- A member that is a documented property of a printable type, or a signature for other keys. -/
def PrintableMember (m : Member) : Prop :=
  (∃ key, Typing.PropertyWith Printable key m) ∨
    ∃ value, m = .index .string value ∧ Printable value

theorem printable_object {members : List Member} (h : ∀ m ∈ members, PrintableMember m) :
    Printable (.object members) := by
  refine .object (fun m hm => ?_) fun m hm type ht => ?_
  · rcases h m hm with ⟨key, _, _, _, doc, rfl, -, documented⟩ | ⟨value, rfl, -⟩
    · exact documented
    · trivial
  · rcases h m hm with ⟨key, _, _, _, doc, rfl, printable, -⟩ | ⟨value, rfl, printable⟩
    · rw [List.mem_singleton.1 ht]
      exact printable
    · rcases List.mem_pair.1 ht with rfl | rfl
      · exact .primitive .string
      · exact printable

theorem printableMember_plain {name : String} {type : TypeExpr} {isOptional : Bool}
    (h : Printable type) : PrintableMember (.plain name type isOptional) :=
  .inl ⟨name, type, isOptional, false, none, rfl, h, Typing.documented_none⟩

/-! ## What typing makes -/

section
variable {index : Index} {state : Typing.State} (finite : index.document.root.Finite)

include finite

theorem finite_listed {place : Pointer} {node value : Json} (hn : index.get? place = some node)
    (hl : Typing.ListedIn node value) : value.Finite := by
  have node_finite := Index.finite_get? finite hn
  have stand := Schema.shape_stands hn
  rcases hl with ⟨values, hv, hm⟩ | hc
  · rw [hv] at stand
    obtain ⟨listed, hk, ha⟩ := Option.bind_eq_some_iff.1 stand
    have list_finite := node_finite.step (Json.step?_key hk)
    cases list_finite with
    | array inner =>
      cases ha
      exact inner value hm
    | null | bool | number | string | object => cases ha
  · rw [hc] at stand
    exact node_finite.step (Json.step?_key stand)

omit finite in
theorem printable_literal {place : Pointer} {value : Json} {type : TypeExpr}
    (hv : value.Finite) (h : Typing.LiteralTyped state place value type) : Printable type := by
  cases hv with
  | null => exact h ▸ .literal trivial
  | bool => exact h ▸ .literal trivial
  | string => exact h ▸ .literal trivial
  | array | object =>
    rw [h.1]
    exact .unknown _
  | @number value hn =>
    cases value with
    | float value => exact h ▸ .literal hn
    | int value =>
      rw [show type = _ from h]
      split
      · exact .literal trivial
      · exact .literal hn

/-- All types that typing makes are printable, of a document with finite numbers. -/
theorem printable_preserved (names : state.names.Valid) :
    Typing.Preserved index state Printable where
  scalar kind := by
    cases kind with
    | null => exact .literal trivial
    | string | number | integer | boolean => exact .primitive _
  unknown := .unknown none
  never := .primitive .never
  undefined := .primitive .undefined
  noted note _ := .unknown (some note)
  value place node value type hn hl ht := printable_literal (finite_listed finite hn hl) ht
  named place name h :=
    .ref (names.shaped name (List.mem_map_of_mem (NameTable.mem_of_get? h)))
  array item h := .array h
  union types h := printable_unionOf h
  intersection types h := printable_intersectionOf h
  tagged property tag type h := by
    refine .intersection (by simp) fun t hm => ?_
    rcases List.mem_pair.1 hm with rfl | rfl
    · refine printable_object fun m hm => ?_
      rw [List.mem_singleton.1 hm]
      exact printableMember_plain (.literal trivial)
    · exact h
  object keys properties signature _ hprops hsig := by
    refine printable_object fun m hm => ?_
    rcases List.mem_append.1 hm with hm | hm
    · obtain ⟨key, -, property⟩ := exists_left_of_forall₂ hprops hm
      exact .inl ⟨key, property⟩
    · obtain ⟨type, hsome, rfl⟩ := List.mem_map.1 hm
      exact .inr ⟨type, rfl, hsig type (by simpa using hsome)⟩

end

end ApiTypes.Reading
