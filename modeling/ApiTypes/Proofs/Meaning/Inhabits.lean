import ApiTypes.Declaration.Basic
import ApiTypes.Proofs.Meaning.Valid
import ApiTypes.Proofs.Lists
import ApiTypes.Proofs.TypeExpr.Occurs

/-!
# Meaning of types

`Inhabits declarations type value` says that a value is of a type, structurally, with the names
looked up among the declarations. Building unions and intersections keeps their meaning:

* `inhabits_of_same`: equal types have the same values;
* `inhabits_unionOf`, `inhabits_intersectionOf`: what is of one of the types is of their union, and
  what is of all of them is of their intersection.
-/

namespace ApiTypes.Meaning

open TypeExpr

/-- A value is of a type. Objects may have keys beside the properties of their type, and an index
signature speaks of every key. -/
inductive Inhabits (declarations : List Declaration) : TypeExpr → Json → Prop
  | string (value : String) : Inhabits declarations (.primitive .string) (.string value)
  | number (value : Number) : Inhabits declarations (.primitive .number) (.number value)
  | boolean (value : Bool) : Inhabits declarations (.primitive .boolean) (.bool value)
  | literalString (value : String) :
      Inhabits declarations (.literal (.string value)) (.string value)
  | literalBool (value : Bool) : Inhabits declarations (.literal (.bool value)) (.bool value)
  | literalNull : Inhabits declarations (.literal .null) .null
  | literalInt {literal : Int} {value : Number}
      (same : (Binary64.ofInt literal).same value.toBinary = true) :
      Inhabits declarations (.literal (.int literal)) (.number value)
  | literalNumber {literal : Binary64} {value : Number}
      (same : literal.same value.toBinary = true) :
      Inhabits declarations (.literal (.number literal)) (.number value)
  | array {item : TypeExpr} {parts : List Json}
      (inside : ∀ part ∈ parts, Inhabits declarations item part) :
      Inhabits declarations (.array item) (.array parts)
  | object {members : List Member} {fields : List (String × Json)}
      (properties : ∀ name type isOptional isReadonly doc,
        .property name type isOptional isReadonly doc ∈ members →
          ∀ part, (name, part) ∈ fields → Inhabits declarations type part)
      (required : ∀ name type isReadonly doc, .property name type false isReadonly doc ∈ members →
        name ∈ fields.map (·.1))
      (indexed : ∀ key type, .index key type ∈ members →
        ∀ field ∈ fields, Inhabits declarations type field.2) :
      Inhabits declarations (.object members) (.object fields)
  | union {types : List TypeExpr} {type : TypeExpr} {value : Json} (member : type ∈ types)
      (inside : Inhabits declarations type value) : Inhabits declarations (.union types) value
  | intersection {types : List TypeExpr} {value : Json}
      (inside : ∀ type ∈ types, Inhabits declarations type value) :
      Inhabits declarations (.intersection types) value
  | ref {declaration : Declaration} {value : Json} (member : declaration ∈ declarations)
      (inside : Inhabits declarations declaration.type value) :
      Inhabits declarations (.ref declaration.name) value
  | unknown (note : Option String) (value : Json) : Inhabits declarations (.unknown note) value

theorem exists_of_ref {declarations : List Declaration} {name : String} {value : Json}
    (h : Inhabits declarations (.ref name) value) : ∃ declaration ∈ declarations,
      declaration.name = name ∧ Inhabits declarations declaration.type value := by
  cases h with
  | ref member inside => exact ⟨_, member, rfl, inside⟩

section
variable {declarations : List Declaration}

/-! ## Equal types -/

theorem same_finite_iff {n m : Bool} {x y : Binary64.Magnitude} :
    (Binary64.finite n x).same (.finite m y) = true ↔ x = y ∧ (n = m ∨ x.mantissa = 0) := by
  simp only [Binary64.same, Bool.and_eq_true, Bool.or_eq_true, beq_iff_eq]

theorem same_trans {x y z : Binary64} (h : x.same y = true) (h' : y.same z = true) :
    x.same z = true := by
  cases x with
  | nan => cases h
  | infinite n =>
    cases y with
    | infinite m =>
      cases z with
      | infinite k =>
        have hnm : n = m := by simpa [Binary64.same] using h
        have hmk : m = k := by simpa [Binary64.same] using h'
        simp [Binary64.same, hnm, hmk]
      | _ => cases h'
    | _ => cases h
  | finite n x =>
    cases y with
    | finite m y =>
      cases z with
      | finite k z =>
        obtain ⟨rfl, hn⟩ := same_finite_iff.1 h
        obtain ⟨rfl, hm⟩ := same_finite_iff.1 h'
        refine same_finite_iff.2 ⟨rfl, ?_⟩
        rcases hn with rfl | hn
        · exact hm
        · exact .inr hn
      | _ => cases h'
    | _ => cases h

theorem sameTypes_iff {as bs : List TypeExpr} :
    sameTypes as bs = true ↔ List.Forall₂ (fun a b => a.same b = true) as bs := by
  induction as generalizing bs with
  | nil => cases bs <;> simp [sameTypes]
  | cons a as ih => cases bs <;> simp [sameTypes, ih]

theorem sameMembers_iff {as bs : List Member} :
    sameMembers as bs = true ↔ List.Forall₂ (fun a b => sameMember a b = true) as bs := by
  induction as generalizing bs with
  | nil => cases bs <;> simp [sameMembers]
  | cons a as ih => cases bs <;> simp [sameMembers, ih]

/-- Equal types have the same values. -/
theorem inhabits_of_same {a b : TypeExpr} {value : Json} (same : a.same b = true)
    (h : Inhabits declarations b value) : Inhabits declarations a value := by
  induction h generalizing a with
  | string value | number value | boolean value =>
    cases a <;> simp [TypeExpr.same] at same
    subst same
    constructor
  | literalString value | literalBool value =>
    cases a <;> simp [TypeExpr.same] at same
    rename_i literal
    cases literal <;> simp [Literal.same] at same
    subst same
    constructor
  | literalNull =>
    cases a <;> simp [TypeExpr.same] at same
    rename_i literal
    cases literal <;> simp [Literal.same] at same
    exact .literalNull
  | literalInt h =>
    cases a <;> simp [TypeExpr.same] at same
    rename_i literal
    cases literal <;> simp [Literal.same] at same
    exact .literalInt (same ▸ h)
  | literalNumber h =>
    cases a <;> simp [TypeExpr.same] at same
    rename_i literal
    cases literal <;> simp [Literal.same] at same
    exact .literalNumber (same_trans same h)
  | array _ ih =>
    cases a <;> simp [TypeExpr.same] at same
    exact .array fun part hm => ih part hm same
  | @object members fields _ required _ properties_ih indexed_ih =>
    cases a <;> simp [TypeExpr.same] at same
    have pairs := sameMembers_iff.1 same
    refine .object ?_ ?_ ?_
    · intro name type isOptional isReadonly doc hm part hp
      obtain ⟨other, ho, hs⟩ := exists_right_of_forall₂ pairs hm
      cases other <;> simp [sameMember] at hs
      obtain ⟨⟨⟨⟨rfl, ht⟩, rfl⟩, rfl⟩, rfl⟩ := hs
      exact properties_ih _ _ _ _ _ ho part hp ht
    · intro name type isReadonly doc hm
      obtain ⟨other, ho, hs⟩ := exists_right_of_forall₂ pairs hm
      cases other <;> simp [sameMember] at hs
      obtain ⟨⟨⟨⟨rfl, ht⟩, rfl⟩, rfl⟩, rfl⟩ := hs
      exact required _ _ _ _ ho
    · intro key type hm field hf
      obtain ⟨other, ho, hs⟩ := exists_right_of_forall₂ pairs hm
      cases other <;> simp [sameMember] at hs
      exact indexed_ih _ _ ho field hf hs.2
  | union member _ ih =>
    cases a <;> simp [TypeExpr.same] at same
    obtain ⟨type, hm, hs⟩ := exists_left_of_forall₂ (sameTypes_iff.1 same) member
    exact .union hm (ih hs)
  | intersection _ ih =>
    cases a <;> simp [TypeExpr.same] at same
    refine .intersection fun type hm => ?_
    obtain ⟨other, ho, hs⟩ := exists_right_of_forall₂ (sameTypes_iff.1 same) hm
    exact ih other ho hs
  | ref member inside _ =>
    cases a <;> simp [TypeExpr.same] at same
    exact same ▸ .ref member inside
  | unknown note value =>
    cases a <;> simp [TypeExpr.same] at same
    exact .unknown _ value

/-! ## Unions and intersections -/

theorem mem_insertNew {types : List TypeExpr} {type t : TypeExpr} (hm : t ∈ types) :
    t ∈ insertNew types type := by
  unfold insertNew
  split
  · exact hm
  · exact List.mem_append_left _ hm

theorem mem_foldl_insertNew {types start : List TypeExpr} {t : TypeExpr} (hm : t ∈ start) :
    t ∈ types.foldl insertNew start := by
  induction types generalizing start with
  | nil => exact hm
  | cons type rest ih => exact ih (mem_insertNew hm)

/-- Of equal types one is kept. -/
theorem exists_kept {types : List TypeExpr} {type : TypeExpr} (hm : type ∈ types) :
    ∃ kept ∈ dedupe types, kept = type ∨ kept.same type = true := by
  obtain ⟨before, after, rfl⟩ := List.append_of_mem hm
  have inserted : ∃ kept ∈ insertNew (before.foldl insertNew []) type,
      kept = type ∨ kept.same type = true := by
    unfold insertNew
    split
    · rename_i found
      obtain ⟨kept, hk, same⟩ := List.any_eq_true.1 found
      exact ⟨kept, hk, .inr same⟩
    · exact ⟨type, List.mem_append_right _ (List.mem_singleton_self type), .inl rfl⟩
  obtain ⟨kept, hk, same⟩ := inserted
  refine ⟨kept, ?_, same⟩
  rw [dedupe, List.foldl_append, List.foldl_cons]
  exact mem_foldl_insertNew hk

theorem inhabits_dedupe {types : List TypeExpr} {type : TypeExpr} {value : Json}
    (hm : type ∈ types) (h : Inhabits declarations type value) :
    ∃ kept ∈ dedupe types, Inhabits declarations kept value := by
  obtain ⟨kept, hk, rfl | same⟩ := exists_kept hm
  · exact ⟨kept, hk, h⟩
  · exact ⟨kept, hk, inhabits_of_same same h⟩

theorem inhabits_ofAlternatives {types : List TypeExpr} {type : TypeExpr} {value : Json}
    (hm : type ∈ types) (h : Inhabits declarations type value) :
    Inhabits declarations (ofAlternatives types) value := by
  unfold ofAlternatives
  split
  · cases hm
  · rwa [← List.mem_singleton.1 hm]
  · exact .union hm h

/-- What is of one of the types is of their union. -/
theorem inhabits_unionOf {types : List TypeExpr} {type : TypeExpr} {value : Json}
    (hm : type ∈ types) (h : Inhabits declarations type value) :
    Inhabits declarations (unionOf types) value := by
  have alternative : ∃ t ∈ types.flatMap alternatives, Inhabits declarations t value := by
    cases type with
    | union inner =>
      cases h with
      | union member inside => exact ⟨_, List.mem_flatMap.2 ⟨_, hm, member⟩, inside⟩
    | _ => exact ⟨_, List.mem_flatMap.2 ⟨_, hm, List.mem_singleton_self _⟩, h⟩
  obtain ⟨t, ht, inside⟩ := alternative
  obtain ⟨kept, hk, inside⟩ := inhabits_dedupe ht inside
  exact inhabits_ofAlternatives hk inside

/-- What is of all of the types is of their intersection. -/
theorem inhabits_intersectionOf {types : List TypeExpr} {value : Json}
    (h : ∀ type ∈ types, Inhabits declarations type value) :
    Inhabits declarations (intersectionOf types) value := by
  have conjunct : ∀ t ∈ types.flatMap conjuncts, Inhabits declarations t value := by
    intro t ht
    obtain ⟨type, hm, ht⟩ := List.mem_flatMap.1 ht
    have inside := h type hm
    cases type with
    | intersection inner =>
      cases inside with
      | intersection inside => exact inside t ht
    | _ => rwa [List.mem_singleton.1 ht]
  unfold intersectionOf ofConjuncts
  split
  · exact .unknown none value
  · rename_i t he
    exact conjunct t (he ▸ List.mem_singleton_self t)
  · exact .intersection conjunct

end

end ApiTypes.Meaning
