import ApiTypes.Proofs.Typing.Recorded
import ApiTypes.Proofs.TypeExpr.Occurs

/-!
# References in the open

A type has a reference in the open when it stands outside all members and items, so that the type
is, in part, what is declared under that name (`TypeExpr.Exposes`). Where it comes from is told by
the document: a schema hands on what a reference leads to and what its composition lists
(`Index.HandsOn`), and what is inside of objects and arrays stays there.

* `exposes_unionOf`, `exposes_intersectionOf`: building types brings no reference into the open;
* `nodeTyped_exposes`: the place of a name in the open is handed on by the schema typed.
-/

namespace ApiTypes

namespace TypeExpr

inductive Exposes (name : String) : TypeExpr → Prop
  | here : Exposes name (.ref name)
  | alternative {types : List TypeExpr} {type : TypeExpr} (member : type ∈ types)
      (inside : Exposes name type) : Exposes name (.union types)
  | conjunct {types : List TypeExpr} {type : TypeExpr} (member : type ∈ types)
      (inside : Exposes name type) : Exposes name (.intersection types)

mutual

/-- The names that a type has in the open, in the order they are written. -/
def openRefs : TypeExpr → List String
  | .ref name => [name]
  | .union types => openRefsOfAll types
  | .intersection types => openRefsOfAll types
  | .array _ | .object _ | .primitive _ | .literal _ | .unknown _ => []

def openRefsOfAll : List TypeExpr → List String
  | [] => []
  | type :: rest => type.openRefs ++ openRefsOfAll rest

end

section
variable {name : String} {types : List TypeExpr}

theorem mem_openRefsOfAll : name ∈ openRefsOfAll types ↔ ∃ type ∈ types, name ∈ type.openRefs := by
  induction types with
  | nil => simp [openRefsOfAll]
  | cons type rest ih => simp [openRefsOfAll, ih]

mutual

theorem exposes_of_mem_openRefs : (type : TypeExpr) → name ∈ type.openRefs → Exposes name type
  | .ref other, h => by
    have same : name = other := by simpa [openRefs] using h
    exact same ▸ .here
  | .union types, h => by
    obtain ⟨type, member, inside⟩ := exposes_of_mem_openRefsOfAll types (by simpa [openRefs] using h)
    exact .alternative member inside
  | .intersection types, h => by
    obtain ⟨type, member, inside⟩ := exposes_of_mem_openRefsOfAll types (by simpa [openRefs] using h)
    exact .conjunct member inside
  | .array _, h | .object _, h | .primitive _, h | .literal _, h | .unknown _, h => by
    simp [openRefs] at h

theorem exposes_of_mem_openRefsOfAll : (types : List TypeExpr) → name ∈ openRefsOfAll types →
    ∃ type ∈ types, Exposes name type
  | [], h => by simp [openRefsOfAll] at h
  | type :: rest, h => by
    rcases List.mem_append.1 (by simpa only [openRefsOfAll] using h) with h | h
    · exact ⟨type, List.mem_cons_self, exposes_of_mem_openRefs type h⟩
    · obtain ⟨found, member, inside⟩ := exposes_of_mem_openRefsOfAll rest h
      exact ⟨found, List.mem_cons_of_mem _ member, inside⟩

end

theorem mem_openRefs_iff {type : TypeExpr} : name ∈ type.openRefs ↔ Exposes name type := by
  refine ⟨exposes_of_mem_openRefs type, fun h => ?_⟩
  induction h with
  | here => simp [openRefs]
  | alternative member _ ih | conjunct member _ ih =>
    rw [openRefs]
    exact mem_openRefsOfAll.2 ⟨_, member, ih⟩

instance (name : String) (type : TypeExpr) : Decidable (Exposes name type) :=
  decidable_of_iff _ mem_openRefs_iff

theorem Exposes.of_alternative {type whole : TypeExpr} (h : Exposes name type)
    (hm : type ∈ whole.alternatives) : Exposes name whole := by
  unfold alternatives at hm
  split at hm
  · exact .alternative hm h
  · rwa [← List.mem_singleton.1 hm]

theorem Exposes.of_conjunct {type whole : TypeExpr} (h : Exposes name type)
    (hm : type ∈ whole.conjuncts) : Exposes name whole := by
  unfold conjuncts at hm
  split at hm
  · exact .conjunct hm h
  · rwa [← List.mem_singleton.1 hm]

theorem exposes_ofAlternatives (h : Exposes name (ofAlternatives types)) :
    ∃ type ∈ types, Exposes name type := by
  unfold ofAlternatives at h
  split at h
  · cases h
  · exact ⟨_, List.mem_singleton_self _, h⟩
  · cases h with
    | alternative member inside => exact ⟨_, member, inside⟩

theorem exposes_ofConjuncts (h : Exposes name (ofConjuncts types)) :
    ∃ type ∈ types, Exposes name type := by
  unfold ofConjuncts at h
  split at h
  · cases h
  · exact ⟨_, List.mem_singleton_self _, h⟩
  · cases h with
    | conjunct member inside => exact ⟨_, member, inside⟩

theorem exposes_unionOf (h : Exposes name (unionOf types)) : ∃ type ∈ types, Exposes name type := by
  obtain ⟨type, hm, inside⟩ := exposes_ofAlternatives h
  obtain ⟨whole, hw, ha⟩ := List.mem_flatMap.1 (mem_of_mem_dedupe hm)
  exact ⟨whole, hw, inside.of_alternative ha⟩

theorem exposes_intersectionOf (h : Exposes name (intersectionOf types)) :
    ∃ type ∈ types, Exposes name type := by
  obtain ⟨type, hm, inside⟩ := exposes_ofConjuncts h
  obtain ⟨whole, hw, ha⟩ := List.mem_flatMap.1 hm
  exact ⟨whole, hw, inside.of_conjunct ha⟩

end

end TypeExpr

/-! ## What a schema hands on -/

namespace Schema

/-- The lists of schemas that a schema is put together from, by their keywords. -/
def Composition.lists {α : Type} (composition : Composition α) : List (String × List α) :=
  composition.allOf.toList.map (("allOf", ·)) ++ composition.oneOf.toList.map (("oneOf", ·)) ++
    composition.anyOf.toList.map (("anyOf", ·))

theorem CompositionStands.lists_stand {index : Index} {place : Pointer} {node : Json}
    {composition : Composition (Inner node)} (h : CompositionStands index place composition)
    {keyword : String} {inners : List (Inner node)} (hm : (keyword, inners) ∈ composition.lists) :
    ListStands index (place.child keyword) inners := by
  simp only [Composition.lists, List.mem_append, List.mem_map, Option.mem_toList,
    Prod.mk.injEq] at hm
  rcases hm with (⟨list, he, rfl, rfl⟩ | ⟨list, he, rfl, rfl⟩) | ⟨list, he, rfl, rfl⟩
  · exact h.allOf list he
  · exact h.oneOf list he
  · exact h.anyOf list he

end Schema

/-- What the schema at the first place says, it has in part from the second: this is where it
refers to, or one of the schemas it is put together from. -/
inductive Index.HandsOn (index : Index) : Pointer → Pointer → Prop
  | reference {place target : Pointer} (link : index.Link place target) : HandsOn index place target
  | listed {place : Pointer} {node : Json} {composition : Schema.Composition (Inner node)}
      {base : Option (Schema.Base (Inner node))} {keyword : String} {inners : List (Inner node)}
      {number : Nat} {inner : Inner node} (stands : index.get? place = some node)
      (composed : Schema.shape node = .composite composition base)
      (list : (keyword, inners) ∈ composition.lists) (found : inners[number]? = some inner) :
      HandsOn index place ((place.child keyword).element number)

namespace Typing

open Schema TypeExpr Relation

section
variable {name : String} {type : TypeExpr}

theorem not_exposes_noted {state : State} {kind : WarningKind} {place : Pointer} {note : String}
    (h : Noted state kind place note type) : ¬Exposes name type := by
  rw [h.1]
  rintro ⟨⟩

theorem not_exposes_literal {state : State} {place : Pointer} {value : Json}
    (h : LiteralTyped state place value type) : ¬Exposes name type := by
  unfold LiteralTyped at h
  split at h
  case h_6 | h_7 => exact not_exposes_noted h
  all_goals
    rw [h]
    rintro ⟨⟩

theorem exposes_tagged {property : String} {mapping : Option (List (String × Json))} {schema : Json}
    (h : Exposes name (taggedType property mapping schema type)) : Exposes name type := by
  unfold taggedType at h
  split at h
  · cases h with
    | conjunct member inside =>
      rcases List.mem_pair.1 member with rfl | rfl
      · cases inside
      · exact inside
  · exact h

end

section
variable {index : Index} {state : State} {node : Json} {typed : InnerTyped node} {place : Pointer}
  {name : String} {type : TypeExpr}

theorem not_exposes_core {core : Core (Inner node)} (h : CoreTyped typed place core type) :
    ¬Exposes name type := by
  cases core with
  | scalar kind =>
    rw [show type = _ from h]
    cases kind <;> rintro ⟨⟩
  | array items =>
    cases items with
    | absent =>
      rw [show type = _ from h]
      rintro ⟨⟩
    | single | tuple =>
      obtain ⟨_, _, _⟩ := h
      subst_vars
      rintro ⟨⟩
  | object shape =>
    obtain ⟨_, _, _, _, rfl⟩ := h
    rintro ⟨⟩

theorem not_exposes_base {base : Base (Inner node)} (h : BaseTyped typed place base type) :
    ¬Exposes name type := by
  cases base with
  | one core => exact not_exposes_core h
  | several cores =>
    obtain ⟨types, made, rfl⟩ := h
    intro exposed
    obtain ⟨part, hm, inside⟩ := exposes_unionOf exposed
    obtain ⟨core, -, hc⟩ := exists_left_of_forall₂ made hm
    exact not_exposes_core hc inside

/-- A schema of the list under a keyword has the name in the open. -/
def ListExposes (typed : InnerTyped node) (place : Pointer) (name : String) (keyword : String)
    (inners : List (Inner node)) : Prop :=
  ∃ number inner type, inners[number]? = some inner ∧
    typed inner ((place.child keyword).element number) type ∧ Exposes name type

theorem ListTyped.exists_of_mem {start : Nat} {inners : List (Inner node)} {types : List TypeExpr}
    (h : ListTyped typed place start inners types) (hm : type ∈ types) :
    ∃ number inner, inners[number]? = some inner ∧
      typed inner (place.element (start + number)) type := by
  induction h with
  | nil => cases hm
  | @cons start inner first inners types made rest ih =>
    rcases List.mem_cons.1 hm with rfl | hm
    · exact ⟨0, inner, rfl, made⟩
    · obtain ⟨number, other, found, made⟩ := ih hm
      refine ⟨number + 1, other, by simpa using found, ?_⟩
      rwa [show start + (number + 1) = start + 1 + number by omega]

theorem ListTyped.exposes {keyword : String} {inners : List (Inner node)} {types : List TypeExpr}
    (h : ListTyped typed (place.child keyword) 0 inners types) (hm : type ∈ types)
    (exposed : Exposes name type) : ListExposes typed place name keyword inners := by
  obtain ⟨number, inner, found, made⟩ := h.exists_of_mem hm
  rw [Nat.zero_add] at made
  exact ⟨number, inner, type, found, made, exposed⟩

/-- Alternatives told apart have in the open what they have without that. -/
theorem exposes_alternatives {inners : List (Inner node)} {types : List TypeExpr}
    (hm : type ∈ alternativesOf node inners types) (h : Exposes name type) :
    ∃ bare ∈ types, Exposes name bare := by
  unfold alternativesOf at hm
  split at hm
  · exact ⟨type, hm, h⟩
  · obtain ⟨number, bound, rfl⟩ := List.mem_iff_getElem.1 hm
    rw [List.getElem_zipWith] at h
    exact ⟨_, List.getElem_mem _, exposes_tagged h⟩

theorem ChoiceUnderTyped.exposes {keyword : String} {inners : Option (List (Inner node))}
    {types : List TypeExpr} (h : ChoiceUnderTyped typed place keyword inners types)
    (hm : type ∈ types) (exposed : Exposes name type) :
    ∃ list, inners = some list ∧ ListExposes typed place name keyword list := by
  cases inners with
  | none =>
    rw [show types = [] from h] at hm
    cases hm
  | some list =>
    obtain ⟨parts, made, rfl⟩ := h
    rw [List.mem_singleton.1 hm] at exposed
    obtain ⟨alternative, hm, exposed⟩ := exposes_unionOf exposed
    obtain ⟨bare, hm, exposed⟩ := exposes_alternatives hm exposed
    exact ⟨list, rfl, made.exposes hm exposed⟩

theorem AllUnderTyped.exposes {inners : Option (List (Inner node))} {types : List TypeExpr}
    (h : AllUnderTyped typed place inners types) (hm : type ∈ types) (exposed : Exposes name type) :
    ∃ list, inners = some list ∧ ListExposes typed place name "allOf" list := by
  cases inners with
  | none =>
    rw [show types = [] from h] at hm
    cases hm
  | some list =>
    obtain ⟨parts, made, rfl⟩ := h
    rw [List.mem_singleton.1 hm] at exposed
    obtain ⟨part, hm, exposed⟩ := exposes_intersectionOf exposed
    exact ⟨list, rfl, made.exposes hm exposed⟩

theorem BaseUnderTyped.not_exposes {base : Option (Base (Inner node))} {types : List TypeExpr}
    (h : BaseUnderTyped typed place base types) (hm : type ∈ types) : ¬Exposes name type := by
  cases base with
  | none =>
    rw [show types = [] from h] at hm
    cases hm
  | some base =>
    obtain ⟨part, made, rfl⟩ := h
    rw [List.mem_singleton.1 hm]
    exact not_exposes_base made

theorem NotUnderTyped.not_exposes {schema : Option Json} {types : List TypeExpr}
    (h : NotUnderTyped state place schema types) (hm : type ∈ types) : ¬Exposes name type := by
  cases schema with
  | none =>
    rw [show types = [] from h] at hm
    cases hm
  | some schema =>
    obtain ⟨part, noted, rfl⟩ := h
    rw [List.mem_singleton.1 hm]
    exact not_exposes_noted noted

theorem CompositeTyped.exposes {composition : Composition (Inner node)}
    {base : Option (Base (Inner node))} {choiceHasNull : Bool}
    (h : CompositeTyped typed place state composition base type choiceHasNull)
    (exposed : Exposes name type) :
    ∃ keyword list, (keyword, list) ∈ composition.lists ∧
      ListExposes typed place name keyword list := by
  obtain ⟨ofBase, ofAll, ofOne, ofAny, ofNot, hb, ha, ho, hy, hn, rfl, -⟩ := h
  obtain ⟨part, hm, inside⟩ := exposes_intersectionOf exposed
  simp only [List.mem_append] at hm
  rcases hm with (((hm | hm) | hm) | hm) | hm
  · exact absurd inside (hb.not_exposes hm)
  · obtain ⟨list, he, open_in⟩ := ha.exposes hm inside
    exact ⟨"allOf", list, by simp [Composition.lists, he], open_in⟩
  · obtain ⟨list, he, open_in⟩ := ho.exposes hm inside
    exact ⟨"oneOf", list, by simp [Composition.lists, he], open_in⟩
  · obtain ⟨list, he, open_in⟩ := hy.exposes hm inside
    exact ⟨"anyOf", list, by simp [Composition.lists, he], open_in⟩
  · exact absurd inside (hn.not_exposes hm)

theorem NullTyped.exposes {bare : TypeExpr} {choiceHasNull : Bool}
    (h : NullTyped state node place bare choiceHasNull type) (exposed : Exposes name type) :
    Exposes name bare := by
  unfold NullTyped at h
  split at h
  · split at h
    · exact absurd exposed (not_exposes_noted h)
    · rw [h] at exposed
      obtain ⟨part, hm, inside⟩ := exposes_unionOf exposed
      rcases List.mem_pair.1 hm with rfl | rfl
      · exact inside
      · cases inside
  · rwa [h] at exposed

end

/-- A name in the open of a type made when `count` types were recorded was given to a place that
the schema hands on. The induction is on `count`, as the type for a reference may repeat one
recorded, and for these on the schema. -/
theorem nodeTyped_exposes {index : Index} {state : State} (ordered : state.Ordered index)
    {name : String} (count : Nat) (node : Json) {place : Pointer} {type : TypeExpr}
    (stands : index.get? place = some node)
    (h : NodeTyped index (state.upTo count) node place type) (exposed : Exposes name type) :
    ∃ target, TransGen index.HandsOn place target ∧ state.names.get? target = some name := by
  obtain ⟨bare, choiceHasNull, made, null⟩ := nodeTyped_iff.1 h
  have exposed := null.exposes exposed
  cases composed : shape node with
  | any | nothing =>
    rw [composed] at made
    rw [made.1] at exposed
    cases exposed
  | reference reference =>
    have written := shape_stands stands
    rw [composed] at made written
    obtain ⟨⟨target, leads, typed⟩, -⟩ := made
    have link : index.HandsOn place target.pointer :=
      .reference ⟨node, reference, target, stands, written, leads, rfl⟩
    rcases typed with ⟨given, named, rfl⟩ | recorded
    · cases exposed
      exact ⟨target.pointer, .single link, named⟩
    · obtain ⟨fewer, less, found, hf, earlier⟩ := ordered.of_mem recorded
      obtain ⟨last, chain, named⟩ := nodeTyped_exposes ordered fewer found hf earlier exposed
      exact ⟨last, .head link chain, named⟩
  | enumeration values =>
    rw [composed] at made
    obtain ⟨⟨types, listed, rfl⟩, -⟩ := made
    obtain ⟨part, hm, inside⟩ := exposes_unionOf exposed
    obtain ⟨value, -, typed⟩ := exists_left_of_forall₂ listed hm
    exact absurd inside (not_exposes_literal typed)
  | enumerationWithComposition | unsupported =>
    rw [composed] at made
    exact absurd exposed (not_exposes_noted made.1)
  | constant value =>
    rw [composed] at made
    exact absurd exposed (not_exposes_literal made.1)
  | structural base =>
    rw [composed] at made
    exact absurd exposed (not_exposes_base made.1)
  | composite composition base =>
    have parts := shape_stands stands
    rw [composed] at made parts
    obtain ⟨keyword, list, member, number, inner, part, found, typed, inside⟩ :=
      CompositeTyped.exposes made exposed
    have inner_stands := parts.1.lists_stand member number inner found
    obtain ⟨last, chain, named⟩ := nodeTyped_exposes ordered count inner.node inner_stands typed inside
    exact ⟨last, .head (.listed stands composed member found) chain, named⟩
termination_by (count, sizeOf node)
decreasing_by
  · exact .left _ _ less
  · exact .right _ inner.smaller

end Typing

end ApiTypes
