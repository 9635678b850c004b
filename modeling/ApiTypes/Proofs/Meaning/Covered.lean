import ApiTypes.Proofs.Meaning.Interpretation
import ApiTypes.Proofs.Meaning.Soundness

/-!
# Types made of one shape

Two types that typing makes of the same shape, in whatever states, differ only in what became of
references. `shapeTyped_covered`: when what is of the one's parts is of the other's, what is of the
one is of the other. There is one lemma for each part of a shape.
-/

namespace ApiTypes.Meaning

open Api Typing Schema TypeExpr

/-! ## Ways of building a type -/

section
variable {meaning : String → Json → Prop} {declarations : List Declaration}

theorem exists_of_widenIndex {value : TypeExpr} {types : List TypeExpr} {anyOptional : Bool}
    {part : Json} (h : Interpreted meaning (widenIndex value types anyOptional) part) :
    ∃ type ∈ value :: types, Interpreted meaning type part := by
  unfold widenIndex at h
  split at h
  · exact ⟨_, List.mem_cons_self, h⟩
  · split at h
    · exact ⟨_, List.mem_cons_self, h⟩
    · obtain ⟨type, hm, inside⟩ := exists_of_unionOf h
      rcases List.mem_append.1 hm with hm | hm
      · exact ⟨type, hm, inside⟩
      · -- no value is of the type that stands for a missing property
        split at hm
        · rw [List.mem_singleton.1 hm] at inside
          cases inside
        · cases hm

theorem covered_widenIndex {a b : TypeExpr} {as bs : List TypeExpr} (anyOptional : Bool)
    (first : Covered meaning declarations a b)
    (rest : List.Forall₂ (Covered meaning declarations) as bs) :
    Covered meaning declarations (widenIndex a as anyOptional) (widenIndex b bs anyOptional) := by
  intro part h
  obtain ⟨type, hm, inside⟩ := exists_of_widenIndex h
  obtain ⟨other, ho, covered⟩ := exists_right_of_forall₂ (.cons first rest) hm
  exact inhabits_widenIndex anyOptional ho (covered part inside)

theorem covered_scalar (kind : ScalarKind) :
    Covered meaning declarations (scalarType kind) (scalarType kind) := by
  cases kind with
  | null => exact covered_literal .null
  | _ => exact covered_primitive _

theorem covered_tagged (property : String) (mapping : Option (List (String × Json)))
    (schema : Json) {a b : TypeExpr} (h : Covered meaning declarations a b) :
    Covered meaning declarations (taggedType property mapping schema a)
      (taggedType property mapping schema b) := by
  unfold taggedType
  split
  · apply covered_intersection
    refine .cons ?_ (.cons h .nil)
    apply covered_object
    exact .cons (.property (covered_literal _)) .nil
  · exact h

theorem covered_noted {state : State} {kind : WarningKind} {place : Pointer} {note : String}
    (a : TypeExpr) {b : TypeExpr} (h : Noted state kind place note b) :
    Covered meaning declarations a b := by
  rw [h.1]
  exact covered_unknown a _

theorem literalTyped_covered {left right : State} {place place' : Pointer} {value : Json}
    {a b : TypeExpr} (h : LiteralTyped left place value a)
    (h' : LiteralTyped right place' value b) : Covered meaning declarations a b := by
  unfold LiteralTyped at h h'
  split at h
  case h_6 | h_7 => exact covered_noted a h'
  all_goals
    rw [h, h']
    exact covered_literal _

end

/-! ## Kinds of value -/

section
variable {index : Index} {meaning : String → Json → Prop} {declarations : List Declaration}
  {left right : State} {node : Json} {typed typed' : InnerTyped node} {place place' : Pointer}
  (inner : ∀ (i : Inner node) p p' t t', index.get? p = some i.node → typed i p t →
    typed' i p' t' → Covered meaning declarations t t')
include inner

theorem listTyped_covered {number number' : Nat} {inners : List (Inner node)}
    {as bs : List TypeExpr} (h : ListTyped typed place number inners as)
    (h' : ListTyped typed' place' number' inners bs)
    (stand : ∀ (n : Nat) (i : Inner node), inners[n]? = some i →
      index.get? (place.element (number + n)) = some i.node) :
    List.Forall₂ (Covered meaning declarations) as bs := by
  induction h generalizing number' bs with
  | nil =>
    cases h'
    exact .nil
  | @cons number i a inners as first rest ih =>
    cases h' with
    | cons first' rest' =>
      refine .cons (inner i _ _ _ _ (stand 0 i rfl) first first') (ih rest' fun n j hn => ?_)
      have := stand (n + 1) j (by simpa using hn)
      rwa [show number + (n + 1) = number + 1 + n by omega] at this

theorem listTyped_covered_of_stands {inners : List (Inner node)} {as bs : List TypeExpr}
    (h : ListTyped typed place 0 inners as) (h' : ListTyped typed' place' 0 inners bs)
    (stand : ListStands index place inners) :
    List.Forall₂ (Covered meaning declarations) as bs :=
  listTyped_covered inner h h' fun n i hn => by simpa using stand n i hn

theorem fieldsTyped_covered {fields : List (String × Inner node)} {as bs : List TypeExpr}
    (h : FieldsTyped typed place fields as) (h' : FieldsTyped typed' place' fields bs)
    (stand : FieldsStand index place fields) :
    List.Forall₂ (Covered meaning declarations) as bs := by
  induction h generalizing bs with
  | nil =>
    cases h'
    exact .nil
  | @cons key i a fields as first rest ih =>
    cases h' with
    | cons first' rest' =>
      have stands := stand.stands key i List.mem_cons_self
      exact .cons (inner i _ _ _ _ stands first first') (ih rest' stand.tail)

theorem additionalTyped_covered {additional : Additional (Inner node)}
    {a b : Option TypeExpr} (h : AdditionalTyped typed place additional a)
    (h' : AdditionalTyped typed' place' additional b)
    (stand : AdditionalStands index place additional) :
    List.Forall₂ (Covered meaning declarations) a.toList b.toList := by
  cases additional with
  | absent | forbidden =>
    rw [show a = none from h, show b = none from h']
    exact .nil
  | any =>
    rw [show a = _ from h, show b = _ from h']
    exact .cons (covered_unknown _ _) .nil
  | schema i =>
    obtain ⟨t, rfl, typed⟩ := h
    obtain ⟨t', rfl, typed'⟩ := h'
    exact .cons (inner i _ _ _ _ stand typed typed') .nil

theorem objectTyped_covered {shape : ObjectShape (Inner node)} {a b : TypeExpr}
    (h : ObjectTyped typed place shape a) (h' : ObjectTyped typed' place' shape b)
    (stand : CoreStands index place (.object shape)) : Covered meaning declarations a b := by
  obtain ⟨as, other, fields, additional, rfl⟩ := h
  obtain ⟨bs, other', fields', additional', rfl⟩ := h'
  have properties := fieldsTyped_covered inner fields fields' stand.1
  have signatures := additionalTyped_covered inner additional additional' stand.2
  apply covered_object
  apply List.rel_append
  · refine forall₂_zipWith ?_ properties _
    intro field a b covered
    exact .property covered
  · rw [List.forall₂_map_left_iff, List.forall₂_map_right_iff]
    refine signatures.imp ?_
    intro a b covered
    exact .index (covered_widenIndex _ covered properties)

theorem coreTyped_covered {core : Core (Inner node)} {a b : TypeExpr}
    (h : CoreTyped typed place core a) (h' : CoreTyped typed' place' core b)
    (stand : CoreStands index place core) : Covered meaning declarations a b := by
  cases core with
  | scalar kind =>
    rw [show a = _ from h, show b = _ from h']
    exact covered_scalar kind
  | array items =>
    cases items with
    | absent =>
      rw [show a = _ from h, show b = _ from h']
      exact covered_array (covered_unknown _ _)
    | single i =>
      obtain ⟨t, rfl, typed⟩ := h
      obtain ⟨t', rfl, typed'⟩ := h'
      exact covered_array (inner i _ _ _ _ stand typed typed')
    | tuple inners =>
      obtain ⟨as, list, rfl⟩ := h
      obtain ⟨bs, list', rfl⟩ := h'
      apply covered_array
      exact covered_unionOf (listTyped_covered_of_stands inner list list' stand)
  | object shape => exact objectTyped_covered inner h h' stand

theorem baseTyped_covered {base : Base (Inner node)} {a b : TypeExpr}
    (h : BaseTyped typed place base a) (h' : BaseTyped typed' place' base b)
    (stand : BaseStands index place base) : Covered meaning declarations a b := by
  cases base with
  | one core => exact coreTyped_covered inner h h' stand
  | several cores =>
    obtain ⟨as, types, rfl⟩ := h
    obtain ⟨bs, types', rfl⟩ := h'
    apply covered_unionOf
    refine forall₂_of_common_left types types' ?_
    intro core hm a b typed typed'
    exact coreTyped_covered inner typed typed' (stand core hm)

/-! ## Composition -/

theorem baseUnderTyped_covered {base : Option (Base (Inner node))} {as bs : List TypeExpr}
    (h : BaseUnderTyped typed place base as) (h' : BaseUnderTyped typed' place' base bs)
    (stand : ∀ b, base = some b → BaseStands index place b) :
    List.Forall₂ (Covered meaning declarations) as bs := by
  cases base with
  | none =>
    rw [show as = [] from h, show bs = [] from h']
    exact .nil
  | some base =>
    obtain ⟨a, typed, rfl⟩ := h
    obtain ⟨b, typed', rfl⟩ := h'
    exact .cons (baseTyped_covered inner typed typed' (stand base rfl)) .nil

theorem allUnderTyped_covered {inners : Option (List (Inner node))} {as bs : List TypeExpr}
    (h : AllUnderTyped typed place inners as) (h' : AllUnderTyped typed' place' inners bs)
    (stand : ∀ is, inners = some is → ListStands index (place.child "allOf") is) :
    List.Forall₂ (Covered meaning declarations) as bs := by
  cases inners with
  | none =>
    rw [show as = [] from h, show bs = [] from h']
    exact .nil
  | some inners =>
    obtain ⟨ts, list, rfl⟩ := h
    obtain ⟨ts', list', rfl⟩ := h'
    have parts := listTyped_covered_of_stands inner list list' (stand inners rfl)
    exact .cons (covered_intersectionOf parts) .nil

theorem choiceUnderTyped_covered {keyword : String} {inners : Option (List (Inner node))}
    {as bs : List TypeExpr} (h : ChoiceUnderTyped typed place keyword inners as)
    (h' : ChoiceUnderTyped typed' place' keyword inners bs)
    (stand : ∀ is, inners = some is → ListStands index (place.child keyword) is) :
    List.Forall₂ (Covered meaning declarations) as bs := by
  cases inners with
  | none =>
    rw [show as = [] from h, show bs = [] from h']
    exact .nil
  | some inners =>
    obtain ⟨ts, list, rfl⟩ := h
    obtain ⟨ts', list', rfl⟩ := h'
    have parts := listTyped_covered_of_stands inner list list' (stand inners rfl)
    refine .cons (covered_unionOf ?_) .nil
    unfold alternativesOf
    split
    · exact parts
    · refine forall₂_zipWith ?_ parts _
      intro i a b covered
      exact covered_tagged _ _ _ covered

omit inner in
theorem notUnderTyped_covered {schema : Option Json} {as bs : List TypeExpr}
    (h : NotUnderTyped left place schema as) (h' : NotUnderTyped right place' schema bs) :
    List.Forall₂ (Covered meaning declarations) as bs := by
  cases schema with
  | none =>
    rw [show as = [] from h, show bs = [] from h']
    exact .nil
  | some schema =>
    obtain ⟨a, -, rfl⟩ := h
    obtain ⟨b, noted, rfl⟩ := h'
    exact .cons (covered_noted a noted) .nil

theorem compositeTyped_covered {composition : Composition (Inner node)}
    {base : Option (Base (Inner node))} {a b : TypeExpr} {c c' : Bool}
    (h : CompositeTyped typed place left composition base a c)
    (h' : CompositeTyped typed' place' right composition base b c')
    (hc : CompositionStands index place composition)
    (hb : ∀ b, base = some b → BaseStands index place b) :
    Covered meaning declarations a b := by
  obtain ⟨_, _, _, _, _, base, all, one, any, not, rfl, -⟩ := h
  obtain ⟨_, _, _, _, _, base', all', one', any', not', rfl, -⟩ := h'
  apply covered_intersectionOf
  refine List.rel_append (List.rel_append (List.rel_append (List.rel_append ?_ ?_) ?_) ?_) ?_
  · exact baseUnderTyped_covered inner base base' hb
  · exact allUnderTyped_covered inner all all' hc.allOf
  · exact choiceUnderTyped_covered inner one one' hc.oneOf
  · exact choiceUnderTyped_covered inner any any' hc.anyOf
  · exact notUnderTyped_covered not not'

/-- Of one shape, with references apart: what is of the first type is of the second. -/
theorem shapeTyped_covered {shape : Shape (Inner node)} {a b : TypeExpr} {c c' : Bool}
    (h : ShapeTyped typed place index left shape a c)
    (h' : ShapeTyped typed' place' index right shape b c')
    (stand : ShapeStands index place shape)
    (reference : ∀ text, ReferenceTyped left index text a → ReferenceTyped right index text b →
      Covered meaning declarations a b) :
    Covered meaning declarations a b := by
  cases shape with
  | any =>
    rw [h'.1]
    exact covered_unknown a none
  | nothing =>
    rw [h.1, h'.1]
    exact covered_primitive .never
  | reference text => exact reference text h.1 h'.1
  | enumeration values =>
    obtain ⟨⟨as, literals, rfl⟩, -⟩ := h
    obtain ⟨⟨bs, literals', rfl⟩, -⟩ := h'
    apply covered_unionOf
    refine forall₂_of_common_left literals literals' ?_
    intro value _ a b typed typed'
    exact literalTyped_covered typed typed'
  | constant value => exact literalTyped_covered h.1 h'.1
  | composite composition base => exact compositeTyped_covered inner h h' stand.1 stand.2
  | structural base => exact baseTyped_covered inner h.1 h'.1 stand
  | enumerationWithComposition | unsupported reason => exact covered_noted a h'.1

end

end ApiTypes.Meaning
