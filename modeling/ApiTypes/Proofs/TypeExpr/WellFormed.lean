import ApiTypes.Proofs.Lists
import ApiTypes.Proofs.TypeExpr.Occurs
import ApiTypes.TypeExpr.Printer

/-!
# Well-formed types

`WellFormed type` says of everything that occurs in a type: a union is of two types or more, all
different and no unions themselves; an intersection is of two types or more; an object gives no
property twice and at most one index signature, as its last member.

* `wellFormed_unionOf`, `wellFormed_intersectionOf`: unions and intersections of well-formed types
  are well-formed, though they are taken apart one level deep only;
* `wellFormed_object`: so are objects of properties with distinct names.
-/

namespace ApiTypes

/-- The name of a property. An index signature has none. -/
def Member.propertyName? : Member → Option String
  | .property name _ _ _ _ => some name
  | .index _ _ => none

namespace TypeExpr

/-! ## Equality is symmetric -/

theorem binary_same_comm (x y : Binary64) : x.same y = y.same x := by
  cases x <;> cases y <;> try rfl
  · rename_i n x m y
    rw [Bool.eq_iff_iff]
    simp only [Binary64.same, Bool.and_eq_true, Bool.or_eq_true, beq_iff_eq]
    constructor
    · rintro ⟨rfl, h⟩
      exact ⟨rfl, h.imp_left Eq.symm⟩
    · rintro ⟨rfl, h⟩
      exact ⟨rfl, h.imp_left Eq.symm⟩
  · exact Bool.beq_comm

theorem literal_same_comm (a b : Literal) : a.same b = b.same a := by
  cases a <;> cases b <;> try rfl
  · exact BEq.comm
  · exact binary_same_comm _ _
  · exact BEq.comm
  · exact BEq.comm

mutual

theorem same_comm : (a b : TypeExpr) → a.same b = b.same a
  | .primitive a, b => by
    cases b <;> simp only [same]
    exact BEq.comm
  | .literal a, b => by
    cases b <;> simp only [same]
    exact literal_same_comm a _
  | .array a, b => by
    cases b <;> simp only [same]
    exact same_comm a _
  | .object a, b => by
    cases b <;> simp only [same]
    exact sameMembers_comm a _
  | .union a, b => by
    cases b <;> simp only [same]
    exact sameTypes_comm a _
  | .intersection a, b => by
    cases b <;> simp only [same]
    exact sameTypes_comm a _
  | .ref a, b => by
    cases b <;> simp only [same]
    exact BEq.comm
  | .unknown a, b => by
    cases b <;> simp only [same]
    exact BEq.comm

theorem sameTypes_comm : (as bs : List TypeExpr) → sameTypes as bs = sameTypes bs as
  | [], bs => by cases bs <;> simp only [sameTypes]
  | a :: as, [] => by simp only [sameTypes]
  | a :: as, b :: bs => by
    simp only [sameTypes]
    rw [same_comm a b, sameTypes_comm as bs]

theorem sameMember_comm : (a b : Member) → sameMember a b = sameMember b a
  | .property name type isOptional isReadonly doc, b => by
    cases b with
    | index => simp only [sameMember]
    | property name' type' isOptional' isReadonly' doc' =>
      simp only [sameMember]
      rw [same_comm type type', @BEq.comm _ _ _ name, @BEq.comm _ _ _ isOptional,
        @BEq.comm _ _ _ isReadonly, @BEq.comm _ _ _ doc]
  | .index key value, b => by
    cases b with
    | property => simp only [sameMember]
    | index key' value' =>
      simp only [sameMember]
      rw [same_comm key key', same_comm value value']

theorem sameMembers_comm : (as bs : List Member) → sameMembers as bs = sameMembers bs as
  | [], bs => by cases bs <;> simp only [sameMembers]
  | a :: as, [] => by simp only [sameMembers]
  | a :: as, b :: bs => by
    simp only [sameMembers]
    rw [sameMember_comm a b, sameMembers_comm as bs]

end

/-! ## Well-formed types -/

/-- Neither type equals the other. -/
def Differs (a b : TypeExpr) : Prop :=
  a.same b = false ∧ b.same a = false

/-- What holds of a well-formed type before one looks inside. -/
def Formed : TypeExpr → Prop
  | .union types =>
    2 ≤ types.length ∧ types.Pairwise Differs ∧ ∀ type ∈ types, type.isUnion = false
  | .intersection types => 2 ≤ types.length
  | .object members =>
    (members.filterMap Member.propertyName?).Nodup ∧
      ∀ member ∈ members.dropLast, member.propertyName?.isSome
  | _ => True

def WellFormed (type : TypeExpr) : Prop :=
  ∀ t, Occurs t type → t.Formed

theorem WellFormed.formed {type : TypeExpr} (h : WellFormed type) : type.Formed :=
  h type .here

theorem wellFormed_union {types : List TypeExpr} (h : (TypeExpr.union types).Formed)
    (inner : ∀ type ∈ types, WellFormed type) : WellFormed (.union types) := by
  intro t ht
  cases ht with
  | here => exact h
  | alternative member inside => exact inner _ member t inside

theorem wellFormed_intersection {types : List TypeExpr} (several : 2 ≤ types.length)
    (inner : ∀ type ∈ types, WellFormed type) : WellFormed (.intersection types) := by
  intro t ht
  cases ht with
  | here => exact several
  | conjunct member inside => exact inner _ member t inside

theorem wellFormed_array {item : TypeExpr} (h : WellFormed item) : WellFormed (.array item) := by
  intro t ht
  cases ht with
  | here => trivial
  | item inside => exact h t inside

theorem wellFormed_primitive (kind : Primitive) : WellFormed (.primitive kind) := by
  intro t ht
  cases ht
  trivial

theorem wellFormed_literal (value : Literal) : WellFormed (.literal value) := by
  intro t ht
  cases ht
  trivial

theorem wellFormed_ref (name : String) : WellFormed (.ref name) := by
  intro t ht
  cases ht
  trivial

theorem wellFormed_unknown (note : Option String) : WellFormed (.unknown note) := by
  intro t ht
  cases ht
  trivial

/-! ## Unions -/

theorem pairwise_insertNew {types : List TypeExpr} (type : TypeExpr)
    (h : types.Pairwise Differs) : (insertNew types type).Pairwise Differs := by
  unfold insertNew
  split
  · exact h
  · rename_i new
    apply List.pairwise_append.2
    refine ⟨h, List.pairwise_singleton _ _, ?_⟩
    intro a ha b hb
    rw [List.mem_singleton.1 hb]
    have differ : a.same type = false := by
      cases hs : a.same type with
      | false => rfl
      | true => exact absurd (List.any_eq_true.2 ⟨a, ha, hs⟩) new
    exact ⟨differ, same_comm type a ▸ differ⟩

theorem pairwise_dedupe (types : List TypeExpr) : (dedupe types).Pairwise Differs := by
  have keeps (types start : List TypeExpr) (h : start.Pairwise Differs) :
      (types.foldl insertNew start).Pairwise Differs := by
    induction types generalizing start with
    | nil => exact h
    | cons type rest ih => exact ih _ (pairwise_insertNew type h)
  exact keeps types [] .nil

theorem wellFormed_of_alternative {type alternative : TypeExpr} (h : WellFormed type)
    (hm : alternative ∈ type.alternatives) :
    WellFormed alternative ∧ alternative.isUnion = false := by
  unfold alternatives at hm
  split at hm
  · obtain ⟨-, -, flat⟩ := h.formed
    exact ⟨fun t ht => h t (.alternative hm ht), flat alternative hm⟩
  · rename_i other
    rw [List.mem_singleton.1 hm]
    constructor
    · exact h
    · cases type with
      | union types => exact absurd rfl (other types)
      | _ => rfl

/-- Taking unions apart one level deep is enough, as none of their members is a union. -/
theorem wellFormed_unionOf {types : List TypeExpr} (h : ∀ type ∈ types, WellFormed type) :
    WellFormed (.unionOf types) := by
  have each : ∀ type ∈ dedupe (types.flatMap alternatives),
      WellFormed type ∧ type.isUnion = false := by
    intro type hm
    obtain ⟨source, hs, ha⟩ := List.mem_flatMap.1 (mem_of_mem_dedupe hm)
    exact wellFormed_of_alternative (h source hs) ha
  have distinct := pairwise_dedupe (types.flatMap alternatives)
  unfold unionOf
  generalize dedupe (types.flatMap alternatives) = found at each distinct ⊢
  match found, each, distinct with
  | [], _, _ => exact wellFormed_primitive .never
  | [type], each, _ => exact (each type (List.mem_singleton_self _)).1
  | first :: second :: rest, each, distinct =>
    apply wellFormed_union
    · exact ⟨by simp, distinct, fun type hm => (each type hm).2⟩
    · exact fun type hm => (each type hm).1

/-! ## Intersections -/

theorem wellFormed_of_conjunct {type conjunct : TypeExpr} (h : WellFormed type)
    (hm : conjunct ∈ type.conjuncts) : WellFormed conjunct := by
  unfold conjuncts at hm
  split at hm
  · exact fun t ht => h t (.conjunct hm ht)
  · rwa [List.mem_singleton.1 hm]

theorem wellFormed_intersectionOf {types : List TypeExpr} (h : ∀ type ∈ types, WellFormed type) :
    WellFormed (.intersectionOf types) := by
  have each : ∀ type ∈ types.flatMap conjuncts, WellFormed type := by
    intro type hm
    obtain ⟨source, hs, hc⟩ := List.mem_flatMap.1 hm
    exact wellFormed_of_conjunct (h source hs) hc
  unfold intersectionOf
  generalize types.flatMap conjuncts = found at each ⊢
  match found, each with
  | [], _ => exact wellFormed_unknown none
  | [type], each => exact each type (List.mem_singleton_self _)
  | first :: second :: rest, each => exact wellFormed_intersection (by simp) each

/-! ## Objects -/

/-- A property under a name, of a well-formed type. -/
def WellFormedProperty (name : String) (member : Member) : Prop :=
  member.propertyName? = some name ∧ ∀ type ∈ member.types, WellFormed type

theorem wellFormedProperty_plain {name : String} {type : TypeExpr} (isOptional : Bool)
    (h : WellFormed type) : WellFormedProperty name (.plain name type isOptional) := by
  constructor
  · rfl
  · intro t ht
    exact List.mem_singleton.1 ht ▸ h

theorem filterMap_propertyName {names : List String} {properties : List Member}
    (h : List.Forall₂ WellFormedProperty names properties) :
    properties.filterMap Member.propertyName? = names := by
  induction h with
  | nil => rfl
  | cons first _ ih => rw [List.filterMap_cons_some first.1, ih]

theorem formed_object {names : List String} {properties : List Member}
    (distinct : names.Nodup) (h : List.Forall₂ WellFormedProperty names properties)
    (signature : Option TypeExpr) :
    (TypeExpr.object (properties ++ signature.toList.map (Member.index .string))).Formed := by
  constructor
  · have behind : (signature.toList.map (Member.index .string)).filterMap
        Member.propertyName? = [] := by
      cases signature <;> rfl
    rw [List.filterMap_append, filterMap_propertyName h, behind, List.append_nil]
    exact distinct
  · intro member hm
    have property : member ∈ properties := by
      cases signature with
      | none => exact List.dropLast_subset _ (by simpa using hm)
      | some type => simpa using hm
    obtain ⟨name, -, named, -⟩ := exists_left_of_forall₂ h property
    simp [named]

/-- An object of properties with distinct names, and behind them perhaps one index signature whose
keys are texts. -/
theorem wellFormed_object {names : List String} {properties : List Member}
    (distinct : names.Nodup) (h : List.Forall₂ WellFormedProperty names properties)
    (signature : Option TypeExpr) (value : ∀ type, signature = some type → WellFormed type) :
    WellFormed (.object (properties ++ signature.toList.map (Member.index .string))) := by
  have parts : ∀ member ∈ properties ++ signature.toList.map (Member.index .string),
      ∀ type ∈ member.types, WellFormed type := by
    intro member hm type ht
    rcases List.mem_append.1 hm with hm | hm
    · obtain ⟨name, -, -, inner⟩ := exists_left_of_forall₂ h hm
      exact inner type ht
    · obtain ⟨found, hf, rfl⟩ := List.mem_map.1 hm
      rcases List.mem_pair.1 ht with rfl | rfl
      · exact wellFormed_primitive .string
      · exact value _ (by simpa using hf)
  intro t ht
  cases ht with
  | here => exact formed_object distinct h signature
  | property member inside => exact parts _ member _ (List.mem_singleton_self _) t inside
  | key member inside => exact parts _ member _ List.mem_cons_self t inside
  | value member inside =>
    exact parts _ member _ (List.mem_cons_of_mem _ (List.mem_singleton_self _)) t inside

/-- An object of nothing but properties with distinct names. -/
theorem wellFormed_properties {names : List String} {properties : List Member}
    (distinct : names.Nodup) (h : List.Forall₂ WellFormedProperty names properties) :
    WellFormed (.object properties) := by
  simpa using wellFormed_object distinct h none (by simp)

end TypeExpr

end ApiTypes
