import ApiTypes.Proofs.Reading.Printable
import ApiTypes.Proofs.TypeExpr.WellFormed
import Mathlib.Data.List.Perm.Subperm
import Mathlib.Tactic.Ring

/-!
# The size of types

An index signature repeats the types of all properties beside it (`widenIndex`), so the size of an
object type is twice that of its parts, and again at every level. `widening` counts the levels of a
type where this happens, and `Fits type k` says that but for the doubling the size is within `k`.

* `fits_unionOf`, `fits_intersectionOf`, `fits_object`: what a type that is put together fits in, by
  what its parts fit in;
* `fits_unionOf_of_subset`: a union counts equal types once.
-/

namespace ApiTypes

/-- Whether a member is an index signature that says something of its values. -/
def Member.isKnownIndex : Member → Bool
  | .index _ (.unknown _) => false
  | .index _ _ => true
  | .property _ _ _ _ _ => false

namespace TypeExpr

open Typing Schema

/-! ## Size -/

mutual

/-- How many types stand in a type, itself among them. -/
def size : TypeExpr → Nat
  | .array item => 1 + item.size
  | .union types => 1 + sizes types
  | .intersection types => 1 + sizes types
  | .object members => 1 + memberSizes members
  | .primitive _ | .literal _ | .ref _ | .unknown _ => 1

def sizes : List TypeExpr → Nat
  | [] => 0
  | type :: rest => type.size + sizes rest

def memberSize : Member → Nat
  | .property _ type _ _ _ => type.size
  | .index key value => key.size + value.size

def memberSizes : List Member → Nat
  | [] => 0
  | member :: rest => memberSize member + memberSizes rest

end

theorem size_pos (type : TypeExpr) : 0 < type.size := by
  cases type <;> simp [size]

theorem sizes_append (as bs : List TypeExpr) : sizes (as ++ bs) = sizes as + sizes bs := by
  induction as with
  | nil => simp [sizes]
  | cons a as ih => simp [sizes, ih, Nat.add_assoc]

theorem memberSizes_append (as bs : List Member) :
    memberSizes (as ++ bs) = memberSizes as + memberSizes bs := by
  induction as with
  | nil => simp [memberSizes]
  | cons a as ih => simp [memberSizes, ih, Nat.add_assoc]

theorem sizes_perm {as bs : List TypeExpr} (h : as.Perm bs) : sizes as = sizes bs := by
  induction h with
  | nil => rfl
  | cons _ _ ih => simp [sizes, ih]
  | swap => simp [sizes, Nat.add_left_comm]
  | trans _ _ ih ih' => exact ih.trans ih'

theorem sizes_le_of_sublist {as bs : List TypeExpr} (h : as.Sublist bs) : sizes as ≤ sizes bs := by
  induction h with
  | slnil => exact Nat.le_refl _
  | cons _ _ ih => exact Nat.le_trans ih (Nat.le_add_left _ _)
  | cons_cons _ _ ih => exact Nat.add_le_add_left ih _

theorem sizes_le_of_subperm {as bs : List TypeExpr} (h : as.Subperm bs) : sizes as ≤ sizes bs := by
  obtain ⟨chosen, perm, sub⟩ := h
  exact sizes_perm perm ▸ sizes_le_of_sublist sub

/-! ## Widening -/

/-- Whether there are properties beside an index signature that says something of its values. -/
def widens (members : List Member) : Bool :=
  members.any (·.propertyName?.isSome) && members.any Member.isKnownIndex

mutual

/-- How many objects in one another repeat the types of their properties. -/
def widening : TypeExpr → Nat
  | .array item => item.widening
  | .union types => wideningOfAll types
  | .intersection types => wideningOfAll types
  | .object members =>
    max (wideningOfProperties members + if widens members then 1 else 0) (wideningOfValues members)
  | .primitive _ | .literal _ | .ref _ | .unknown _ => 0

def wideningOfAll : List TypeExpr → Nat
  | [] => 0
  | type :: rest => max type.widening (wideningOfAll rest)

def propertyWidening : Member → Nat
  | .property _ type _ _ _ => type.widening
  | .index _ _ => 0

def wideningOfProperties : List Member → Nat
  | [] => 0
  | member :: rest => max (propertyWidening member) (wideningOfProperties rest)

def valueWidening : Member → Nat
  | .property _ _ _ _ _ => 0
  | .index _ value => value.widening

def wideningOfValues : List Member → Nat
  | [] => 0
  | member :: rest => max (valueWidening member) (wideningOfValues rest)

end

theorem wideningOfAll_append (as bs : List TypeExpr) :
    wideningOfAll (as ++ bs) = max (wideningOfAll as) (wideningOfAll bs) := by
  induction as with
  | nil => simp [wideningOfAll]
  | cons a as ih => simp [wideningOfAll, ih, Nat.max_assoc]

theorem wideningOfProperties_append (as bs : List Member) :
    wideningOfProperties (as ++ bs) = max (wideningOfProperties as) (wideningOfProperties bs) := by
  induction as with
  | nil => simp [wideningOfProperties]
  | cons a as ih => simp [wideningOfProperties, ih, Nat.max_assoc]

theorem wideningOfValues_append (as bs : List Member) :
    wideningOfValues (as ++ bs) = max (wideningOfValues as) (wideningOfValues bs) := by
  induction as with
  | nil => simp [wideningOfValues]
  | cons a as ih => simp [wideningOfValues, ih, Nat.max_assoc]

theorem wideningOfAll_le {types : List TypeExpr} {bound : Nat} :
    wideningOfAll types ≤ bound ↔ ∀ type ∈ types, type.widening ≤ bound := by
  induction types with
  | nil => simp [wideningOfAll]
  | cons type rest ih => rw [wideningOfAll, Nat.max_le, ih, List.forall_mem_cons]

theorem widening_le_of_mem {types : List TypeExpr} {type : TypeExpr} (h : type ∈ types) :
    type.widening ≤ wideningOfAll types :=
  wideningOfAll_le.1 (Nat.le_refl _) type h

theorem widening_le_of_property {members : List Member} {name : String} {type : TypeExpr}
    {isOptional isReadonly : Bool} {doc : Option Doc}
    (h : .property name type isOptional isReadonly doc ∈ members) :
    type.widening ≤ (object members).widening := by
  have inside : type.widening ≤ wideningOfProperties members := by
    induction members with
    | nil => cases h
    | cons member rest ih =>
      rw [wideningOfProperties]
      rcases List.mem_cons.1 h with rfl | h
      · exact Nat.le_max_left _ _
      · exact Nat.le_trans (ih h) (Nat.le_max_right _ _)
  rw [widening]
  omega

/-! ### Equal types -/

/-- Members that count alike for widening. -/
structure WidenAlike (a b : Member) : Prop where
  ofProperty : propertyWidening a = propertyWidening b
  ofValue : valueWidening a = valueWidening b
  isProperty : a.propertyName?.isSome = b.propertyName?.isSome
  isKnownIndex : a.isKnownIndex = b.isKnownIndex

theorem widening_object_eq {as bs : List Member} (h : List.Forall₂ WidenAlike as bs) :
    (TypeExpr.object as).widening = (TypeExpr.object bs).widening := by
  have inside : wideningOfProperties as = wideningOfProperties bs ∧
      wideningOfValues as = wideningOfValues bs := by
    induction h with
    | nil => exact ⟨rfl, rfl⟩
    | cons first _ ih =>
      simp only [wideningOfProperties, wideningOfValues, first.ofProperty, first.ofValue, ih,
        and_self]
  have widened : widens bs = widens as := by
    unfold widens
    rw [any_eq_of_forall₂ h fun _ _ alike => alike.isProperty.symm,
      any_eq_of_forall₂ h fun _ _ alike => alike.isKnownIndex.symm]
  simp only [widening, inside, widened]

mutual

theorem widening_eq_of_same : (a b : TypeExpr) → a.same b = true → a.widening = b.widening
  | .primitive _, b, h => by cases b <;> simp_all [same, widening]
  | .literal _, b, h => by cases b <;> simp_all [same, widening]
  | .ref _, b, h => by cases b <;> simp_all [same, widening]
  | .unknown _, b, h => by cases b <;> simp_all [same, widening]
  | .array a, b, h => by
    cases b with
    | array b =>
      rw [widening, widening]
      exact widening_eq_of_same a b (by simpa [same] using h)
    | _ => simp [same] at h
  | .union as, b, h => by
    cases b with
    | union bs =>
      rw [widening, widening]
      exact wideningOfAll_eq_of_same as bs (by simpa [same] using h)
    | _ => simp [same] at h
  | .intersection as, b, h => by
    cases b with
    | intersection bs =>
      rw [widening, widening]
      exact wideningOfAll_eq_of_same as bs (by simpa [same] using h)
    | _ => simp [same] at h
  | .object as, b, h => by
    cases b with
    | object bs => exact widening_object_eq (widenAlike_of_same as bs (by simpa [same] using h))
    | _ => simp [same] at h

theorem wideningOfAll_eq_of_same : (as bs : List TypeExpr) → sameTypes as bs = true →
    wideningOfAll as = wideningOfAll bs
  | [], [], _ => rfl
  | [], _ :: _, h => by simp [sameTypes] at h
  | _ :: _, [], h => by simp [sameTypes] at h
  | a :: as, b :: bs, h => by
    simp only [sameTypes, Bool.and_eq_true] at h
    rw [wideningOfAll, wideningOfAll, widening_eq_of_same a b h.1,
      wideningOfAll_eq_of_same as bs h.2]

theorem widenAlike_of_same : (as bs : List Member) → sameMembers as bs = true →
    List.Forall₂ WidenAlike as bs
  | [], [], _ => .nil
  | [], _ :: _, h => by simp [sameMembers] at h
  | _ :: _, [], h => by simp [sameMembers] at h
  | .property _ a _ _ _ :: as, .property _ b _ _ _ :: bs, h => by
    simp only [sameMembers, sameMember, Bool.and_eq_true] at h
    have inner := widening_eq_of_same a b h.1.1.1.1.2
    exact .cons ⟨inner, rfl, rfl, rfl⟩ (widenAlike_of_same as bs h.2)
  | .index key a :: as, .index key' b :: bs, h => by
    simp only [sameMembers, sameMember, Bool.and_eq_true] at h
    have inner := widening_eq_of_same a b h.1.2
    have known : (Member.index key a).isKnownIndex = (Member.index key' b).isKnownIndex := by
      cases a <;> cases b <;> first | rfl | simp [same] at h
    exact .cons ⟨rfl, inner, rfl, known⟩ (widenAlike_of_same as bs h.2)
  | .property _ _ _ _ _ :: _, .index _ _ :: _, h => by simp [sameMembers, sameMember] at h
  | .index _ _ :: _, .property _ _ _ _ _ :: _, h => by simp [sameMembers, sameMember] at h

end

/-! ## What a type fits in -/

/-- But for what widening repeats, the size is within `k`. -/
def Fits (type : TypeExpr) (k : Nat) : Prop :=
  type.size ≤ 2 ^ type.widening * k

/-- But for what widening repeats, the sizes together are within `k`. -/
def FitAll (types : List TypeExpr) (k : Nat) : Prop :=
  sizes types ≤ 2 ^ wideningOfAll types * k

/-- Allowing more levels and more besides them. -/
theorem le_pow_mul {size level level' k k' : Nat} (h : size ≤ 2 ^ level * k)
    (levels : level ≤ level') (le : k ≤ k') : size ≤ 2 ^ level' * k' :=
  Nat.le_trans h (Nat.mul_le_mul (Nat.pow_le_pow_right (by omega) levels) le)

theorem Fits.mono {type : TypeExpr} {k k' : Nat} (h : type.Fits k) (le : k ≤ k') : type.Fits k' :=
  le_pow_mul h (Nat.le_refl _) le

theorem FitAll.mono {types : List TypeExpr} {k k' : Nat} (h : FitAll types k) (le : k ≤ k') :
    FitAll types k' :=
  le_pow_mul h (Nat.le_refl _) le

theorem Fits.pos {type : TypeExpr} {k : Nat} (h : type.Fits k) : 0 < k := by
  have := type.size_pos
  rcases Nat.eq_zero_or_pos k with rfl | pos
  · simp only [Fits, Nat.mul_zero] at h
    omega
  · exact pos

/-- What is built around parts takes as much more as it adds to the size. -/
theorem le_pow_mul_add {size parts level level' k more : Nat} (h : parts ≤ 2 ^ level * k)
    (le : size ≤ parts + more) (levels : level ≤ level') : size ≤ 2 ^ level' * (k + more) := by
  have enough : more ≤ 2 ^ level' * more := Nat.le_mul_of_pos_left _ (Nat.two_pow_pos _)
  calc size
    _ ≤ parts + more := le
    _ ≤ 2 ^ level' * k + 2 ^ level' * more :=
      Nat.add_le_add (le_pow_mul h levels (Nat.le_refl _)) enough
    _ = 2 ^ level' * (k + more) := (Nat.mul_add _ _ _).symm

theorem fits_around {type : TypeExpr} {parts level k more : Nat} (h : parts ≤ 2 ^ level * k)
    (size : type.size ≤ parts + more) (levels : level ≤ type.widening) : type.Fits (k + more) :=
  le_pow_mul_add h size levels

theorem fits_of_size_le {type : TypeExpr} {k : Nat} (h : type.size ≤ k) : type.Fits k :=
  Nat.le_trans h (Nat.le_mul_of_pos_left _ (Nat.two_pow_pos _))

theorem fitAll_nil : FitAll [] 0 := by
  simp [FitAll, sizes]

theorem FitAll.append {as bs : List TypeExpr} {k m : Nat} (ha : FitAll as k) (hb : FitAll bs m) :
    FitAll (as ++ bs) (k + m) := by
  unfold FitAll
  rw [sizes_append, wideningOfAll_append, Nat.mul_add]
  exact Nat.add_le_add (le_pow_mul ha (Nat.le_max_left _ _) (Nat.le_refl _))
    (le_pow_mul hb (Nat.le_max_right _ _) (Nat.le_refl _))

theorem fitAll_singleton {type : TypeExpr} {k : Nat} : FitAll [type] k ↔ type.Fits k := by
  simp [FitAll, Fits, sizes, wideningOfAll]

theorem FitAll.cons {type : TypeExpr} {types : List TypeExpr} {k m : Nat} (h : type.Fits k)
    (hs : FitAll types m) : FitAll (type :: types) (k + m) :=
  (fitAll_singleton.2 h).append hs

theorem fits_array {item : TypeExpr} {k : Nat} (h : item.Fits k) : (array item).Fits (k + 1) :=
  fits_around h (by rw [size]; omega) (Nat.le_refl _)

/-! ### Unions and intersections -/

theorem sizes_flatMap_le {parts : TypeExpr → List TypeExpr}
    (le : ∀ type, sizes (parts type) ≤ type.size) (types : List TypeExpr) :
    sizes (types.flatMap parts) ≤ sizes types := by
  induction types with
  | nil => exact Nat.le_refl _
  | cons type rest ih =>
    rw [List.flatMap_cons, sizes_append]
    exact Nat.add_le_add (le type) ih

theorem wideningOfAll_flatMap {parts : TypeExpr → List TypeExpr}
    (levels : ∀ type, wideningOfAll (parts type) = type.widening) (types : List TypeExpr) :
    wideningOfAll (types.flatMap parts) = wideningOfAll types := by
  induction types with
  | nil => rfl
  | cons type rest ih => rw [List.flatMap_cons, wideningOfAll_append, wideningOfAll, levels, ih]

theorem sizes_insertNew_le (types : List TypeExpr) (type : TypeExpr) :
    sizes (insertNew types type) ≤ sizes types + type.size := by
  unfold insertNew
  split
  · exact Nat.le_add_right _ _
  · exact Nat.le_of_eq (by rw [sizes_append, sizes, sizes, Nat.add_zero])

/-- Equal types have equal levels, so leaving one of them out leaves the levels. -/
theorem wideningOfAll_insertNew (types : List TypeExpr) (type : TypeExpr) :
    wideningOfAll (insertNew types type) = max (wideningOfAll types) type.widening := by
  unfold insertNew
  split
  · rename_i old
    obtain ⟨equal, hm, same⟩ := List.any_eq_true.1 old
    have := widening_le_of_mem hm
    rw [widening_eq_of_same equal type same] at this
    omega
  · rw [wideningOfAll_append, wideningOfAll, wideningOfAll, Nat.max_zero]

theorem sizes_dedupe_le (types : List TypeExpr) : sizes (dedupe types) ≤ sizes types := by
  have grown (types start : List TypeExpr) :
      sizes (types.foldl insertNew start) ≤ sizes start + sizes types := by
    induction types generalizing start with
    | nil => exact Nat.le_refl _
    | cons type rest ih =>
      have later := ih (insertNew start type)
      have first := sizes_insertNew_le start type
      rw [List.foldl_cons, sizes]
      omega
  simpa [sizes, dedupe] using grown types []

theorem wideningOfAll_dedupe (types : List TypeExpr) :
    wideningOfAll (dedupe types) = wideningOfAll types := by
  have grown (types start : List TypeExpr) : wideningOfAll (types.foldl insertNew start) =
      max (wideningOfAll start) (wideningOfAll types) := by
    induction types generalizing start with
    | nil => exact (Nat.max_zero _).symm
    | cons type rest ih =>
      rw [List.foldl_cons, ih, wideningOfAll_insertNew, wideningOfAll, Nat.max_assoc]
  simpa [wideningOfAll, dedupe] using grown types []

theorem size_ofAlternatives_le (types : List TypeExpr) :
    (ofAlternatives types).size ≤ sizes types + 1 := by
  unfold ofAlternatives
  split <;> simp only [size, sizes, never] <;> omega

theorem widening_ofAlternatives (types : List TypeExpr) :
    (ofAlternatives types).widening = wideningOfAll types := by
  unfold ofAlternatives
  split <;> simp [widening, wideningOfAll, never]

theorem size_ofConjuncts_le (types : List TypeExpr) :
    (ofConjuncts types).size ≤ sizes types + 1 := by
  unfold ofConjuncts
  split <;> simp only [size, sizes] <;> omega

theorem widening_ofConjuncts (types : List TypeExpr) :
    (ofConjuncts types).widening = wideningOfAll types := by
  unfold ofConjuncts
  split <;> simp [widening, wideningOfAll]

theorem size_unionOf_le (types : List TypeExpr) : (unionOf types).size ≤ sizes types + 1 := by
  have apart : sizes (types.flatMap alternatives) ≤ sizes types :=
    sizes_flatMap_le (fun type => by cases type <;> simp [alternatives, sizes, size]) types
  have distinct := sizes_dedupe_le (types.flatMap alternatives)
  have := size_ofAlternatives_le (dedupe (types.flatMap alternatives))
  unfold unionOf
  omega

theorem widening_unionOf (types : List TypeExpr) :
    (unionOf types).widening = wideningOfAll types := by
  rw [unionOf, widening_ofAlternatives, wideningOfAll_dedupe, wideningOfAll_flatMap]
  intro type
  cases type <;> simp [alternatives, wideningOfAll, widening]

theorem fits_unionOf {types : List TypeExpr} {k : Nat} (h : FitAll types k) :
    (unionOf types).Fits (k + 1) :=
  fits_around h (size_unionOf_le types) (Nat.le_of_eq (widening_unionOf types).symm)

theorem fits_intersectionOf {types : List TypeExpr} {k : Nat} (h : FitAll types k) :
    (intersectionOf types).Fits (k + 1) := by
  have apart : sizes (types.flatMap conjuncts) ≤ sizes types :=
    sizes_flatMap_le (fun type => by cases type <;> simp [conjuncts, sizes, size]) types
  have levels : wideningOfAll (types.flatMap conjuncts) = wideningOfAll types :=
    wideningOfAll_flatMap (fun type => by cases type <;> simp [conjuncts, wideningOfAll, widening]) types
  have := size_ofConjuncts_le (types.flatMap conjuncts)
  refine fits_around h ?_ ?_
  · unfold intersectionOf
    omega
  · exact Nat.le_of_eq (by rw [intersectionOf, widening_ofConjuncts, levels])

/-- A union whose alternatives are all among some types is no larger than these, however often they
are repeated. -/
theorem fits_unionOf_of_subset {types among : List TypeExpr} {k : Nat}
    (flat : ∀ type ∈ types, type.isUnion = false) (equal : ∀ type ∈ types, type.same type = true)
    (subset : types ⊆ among) (part : among ⊆ types) (h : FitAll among k) :
    (unionOf types).Fits (k + 1) := by
  have apart : types.flatMap alternatives = types := by
    rw [List.flatMap_congr fun type hm => alternatives_of_not_union (flat type hm),
      List.flatMap_singleton']
  have distinct : (dedupe types).Nodup := by
    refine (pairwise_dedupe types).imp_of_mem fun {a b} ha _ differ => ?_
    rintro rfl
    exact Bool.noConfusion (differ.1.symm.trans (equal a (mem_of_mem_dedupe ha)))
  have fewer : sizes (dedupe types) ≤ sizes among :=
    sizes_le_of_subperm (List.subperm_of_subset distinct fun _ hm => subset (mem_of_mem_dedupe hm))
  have levels : wideningOfAll among ≤ wideningOfAll (dedupe types) := by
    rw [wideningOfAll_dedupe]
    exact wideningOfAll_le.2 fun type hm => widening_le_of_mem (part hm)
  rw [unionOf, apart]
  refine fits_around (Nat.le_trans fewer h) (size_ofAlternatives_le _) ?_
  rwa [widening_ofAlternatives]

/-! ### Objects -/

/-- The property of a type. -/
def IsPropertyOf (type : TypeExpr) (member : Member) : Prop :=
  ∃ name isOptional isReadonly doc, member = .property name type isOptional isReadonly doc

section
variable {types : List TypeExpr} {properties : List Member}
  (h : List.Forall₂ IsPropertyOf types properties)
include h

theorem memberSizes_properties : memberSizes properties = sizes types := by
  induction h with
  | nil => rfl
  | cons first _ ih =>
    obtain ⟨name, isOptional, isReadonly, doc, rfl⟩ := first
    rw [memberSizes, memberSize, sizes, ih]

theorem wideningOfProperties_properties : wideningOfProperties properties = wideningOfAll types := by
  induction h with
  | nil => rfl
  | cons first _ ih =>
    obtain ⟨name, isOptional, isReadonly, doc, rfl⟩ := first
    rw [wideningOfProperties, propertyWidening, wideningOfAll, ih]

theorem any_propertyName_properties :
    (properties.any fun member => member.propertyName?.isSome) = !types.isEmpty := by
  cases h with
  | nil => rfl
  | cons first _ =>
    obtain ⟨name, isOptional, isReadonly, doc, rfl⟩ := first
    rfl

theorem fits_properties {k : Nat} (fit : FitAll types k) : (object properties).Fits (k + 1) := by
  refine fits_around fit ?_ ?_
  · exact Nat.le_of_eq (by rw [size, memberSizes_properties h, Nat.add_comm])
  · rw [widening, wideningOfProperties_properties h]
    omega

/-- An index signature beside properties, whatever its values are. -/
theorem widening_le_object (value : TypeExpr) :
    wideningOfAll types ≤ (object (properties ++ [.index .string value])).widening ∧
      value.widening ≤ (object (properties ++ [.index .string value])).widening := by
  simp only [widening, wideningOfProperties_append, wideningOfProperties_properties h,
    wideningOfValues_append, wideningOfValues, valueWidening]
  omega

theorem size_object (value : TypeExpr) :
    (object (properties ++ [.index .string value])).size = sizes types + value.size + 2 := by
  simp only [size, memberSizes_append, memberSizes_properties h, memberSizes, memberSize, string]
  omega

/-- Where an index signature that says something is beside properties, there is a level more. -/
theorem widening_lt_object {value : TypeExpr} (some : types ≠ [])
    (known : (Member.index .string value).isKnownIndex = true) :
    wideningOfAll types < (object (properties ++ [.index .string value])).widening := by
  have widened : widens (properties ++ [.index .string value]) = true := by
    simp only [widens, List.any_append, any_propertyName_properties h, List.any_cons, known]
    simp [some]
  simp only [widening, widened, wideningOfProperties_append, wideningOfProperties_properties h,
    if_true]
  omega

omit h in
theorem size_eq_of_not_known {value : TypeExpr}
    (unknown : (Member.index .string value).isKnownIndex = false) : value.size = 1 := by
  cases value <;> first | rfl | cases unknown

omit h in
theorem widenIndex_cases (value : TypeExpr) (types : List TypeExpr) (anyOptional : Bool) :
    (widenIndex value types anyOptional = value ∧ (types = [] ∨ value.size = 1)) ∨
      (types ≠ [] ∧ widenIndex value types anyOptional =
        unionOf (value :: types ++ if anyOptional then [.undefined] else [])) := by
  unfold widenIndex
  split
  · exact .inl ⟨rfl, .inr rfl⟩
  · split
    · exact .inl ⟨rfl, .inl (List.isEmpty_iff.1 ‹_›)⟩
    · rename_i some
      exact .inr ⟨fun empty => some (List.isEmpty_iff.2 empty), rfl⟩

omit h in
theorem size_widened_le (value : TypeExpr) (types : List TypeExpr) (anyOptional : Bool) :
    (unionOf (value :: types ++ if anyOptional then [.undefined] else [])).size ≤
      value.size + sizes types + 2 := by
  refine Nat.le_trans (size_unionOf_le _) ?_
  rw [List.cons_append, sizes, sizes_append]
  cases anyOptional <;> simp only [sizes, size, undefined, if_true, if_false, Bool.false_eq_true]
    <;> omega

omit h in
/-- One level more allows for what is there twice. -/
theorem fits_twice {type : TypeExpr} {parts level k other level' m : Nat} (twice : parts ≤ 2 ^ level * k)
    (once : other ≤ 2 ^ level' * m) (size : type.size ≤ 2 * parts + other + 4)
    (more : level < type.widening) (levels : level' ≤ type.widening) : type.Fits (k + m + 2) := by
  have doubled : 2 * parts ≤ 2 ^ type.widening * k :=
    calc 2 * parts
      _ ≤ 2 * (2 ^ level * k) := Nat.mul_le_mul_left _ twice
      _ = 2 ^ (level + 1) * k := by rw [Nat.pow_succ']; ring
      _ ≤ 2 ^ type.widening * k := le_pow_mul (Nat.le_refl _) more (Nat.le_refl _)
  have single : other ≤ 2 ^ type.widening * m := le_pow_mul once levels (Nat.le_refl _)
  have rest : 4 ≤ 2 ^ type.widening * 2 :=
    le_pow_mul (show 4 ≤ 2 ^ 1 * 2 by decide) (by omega) (Nat.le_refl 2)
  calc type.size
    _ ≤ 2 * parts + other + 4 := size
    _ ≤ 2 ^ type.widening * k + 2 ^ type.widening * m + 2 ^ type.widening * 2 := by omega
    _ = 2 ^ type.widening * (k + m + 2) := by ring

/-- The types of the properties count once for themselves and once for the index signature that
repeats them. -/
theorem fits_signature {value : TypeExpr} {k m : Nat} (fit : FitAll types k) (hv : value.Fits m)
    (anyOptional : Bool) :
    (object (properties ++ [.index .string (widenIndex value types anyOptional)])).Fits
      (k + m + 2) := by
  obtain ⟨ofTypes, ofValue⟩ := widening_le_object h (widenIndex value types anyOptional)
  have size := size_object h (widenIndex value types anyOptional)
  -- An index signature that says nothing takes no more than the two types it is made of.
  have unwidened (short : (widenIndex value types anyOptional).size = 1) :
      (object (properties ++ [.index .string (widenIndex value types anyOptional)])).Fits
        (k + m + 2) := by
    have bound : (object (properties ++
        [.index .string (widenIndex value types anyOptional)])).size ≤ sizes types + 3 := by omega
    have := hv.pos
    exact (fits_around fit bound ofTypes).mono (by omega)
  cases known : (Member.index .string (widenIndex value types anyOptional)).isKnownIndex with
  | false => exact unwidened (size_eq_of_not_known known)
  | true =>
    rcases widenIndex_cases value types anyOptional with ⟨same, rfl | short⟩ | ⟨some, widened⟩
    · rw [same] at size ofValue ⊢
      have bound : (object (properties ++ [.index .string value])).size ≤ value.size + 2 := by
        rw [size, sizes]
        omega
      exact (fits_around hv bound ofValue).mono (by omega)
    · exact unwidened (by rw [same, short])
    · have repeated := size_widened_le value types anyOptional
      rw [← widened] at repeated
      have inside : value.widening ≤ (widenIndex value types anyOptional).widening := by
        rw [widened, widening_unionOf]
        exact widening_le_of_mem List.mem_cons_self
      exact fits_twice fit hv (by omega) (widening_lt_object h some known)
        (Nat.le_trans inside ofValue)

end

theorem isPropertyOf_zipWith {node : Json} (required : List String)
    {fields : List (String × Inner node)} {types : List TypeExpr}
    (all : types.length = fields.length) : List.Forall₂ IsPropertyOf types
      (List.zipWith (fun field type => propertyOf required field.1 field.2.node type) fields types) := by
  induction fields generalizing types with
  | nil =>
    rw [List.length_eq_zero_iff.1 all]
    exact .nil
  | cons field fields ih =>
    obtain ⟨type, types, rfl⟩ := List.exists_cons_of_length_eq_add_one all
    exact .cons ⟨_, _, _, _, rfl⟩ (ih (by simpa using all))

/-- An object type with perhaps an index signature. -/
theorem fits_object {node : Json} {shape : ObjectShape (Inner node)} {types : List TypeExpr}
    {additional : Option TypeExpr} {k m : Nat}
    (all : types.length = (shape.properties.getD []).length) (fit : FitAll types k)
    (ofValue : ∀ value, additional = some value → value.Fits m) :
    (object (membersOf shape types additional)).Fits (k + m + 2) := by
  have properties := isPropertyOf_zipWith (requiredKeys shape.required) all
  unfold membersOf
  cases additional with
  | none => simpa using (fits_properties properties fit).mono (by omega)
  | some value => exact fits_signature properties fit (ofValue value rfl) _

end TypeExpr

end ApiTypes
