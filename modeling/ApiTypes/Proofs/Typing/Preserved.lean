import ApiTypes.Proofs.Typing.Degraded
import ApiTypes.Proofs.Typing.Invariant

/-!
# Properties of the types made

A property of types that all ways of building a type preserve (`Preserved`) holds of every type
that typing makes:

* `NodeTyped.preserved`: it holds of a result, if it holds of the types recorded;
* `run_expanded`: it holds of the types recorded, after any run.
-/

namespace ApiTypes.Typing

open Schema

/-- The tags are among those that documentation is made of. -/
def Documented (doc : Option Doc) : Prop :=
  ∀ d ∈ doc, ∀ tag ∈ d.tags, tag.1 = "deprecated" ∨ tag.1 ∈ taggedKeywords

/-- A property under a key, whose type is as said. -/
def PropertyWith (P : TypeExpr → Prop) (key : String) (member : Member) : Prop :=
  ∃ type isOptional isReadonly doc,
    member = .property key type isOptional isReadonly doc ∧ P type ∧ Documented doc

/-- What has to be shown of a property of types, for it to hold of every type that typing makes
in a state: that every way of building a type preserves it. -/
structure Preserved (index : Index) (state : State) (P : TypeExpr → Prop) : Prop where
  scalar : ∀ kind, P (scalarType kind)
  unknown : P (.unknown none)
  never : P .never
  undefined : P .undefined
  noted : ∀ note, NoteFounded index state note → P (.unknown (some note))
  value : ∀ place node value type, index.get? place = some node → ListedIn node value →
    LiteralTyped state place value type → P type
  named : ∀ place name, state.names.get? place = some name → P (.ref name)
  array : ∀ item, P item → P (.array item)
  union : ∀ types, (∀ type ∈ types, P type) → P (.unionOf types)
  intersection : ∀ types, (∀ type ∈ types, P type) → P (.intersectionOf types)
  tagged : ∀ property tag type, P type →
    P (.intersection [.object [.plain property (.literal (.string tag)) false], type])
  object : ∀ (keys : List String) (properties : List Member) (signature : Option TypeExpr),
    keys.Nodup → List.Forall₂ (PropertyWith P) keys properties →
    (∀ type, signature = some type → P type) →
    P (.object (properties ++ signature.toList.map (Member.index .string)))

theorem documented_none : Documented none := by
  simp [Documented]

theorem documented_nonempty? {doc : Doc}
    (h : ∀ tag ∈ doc.tags, tag.1 = "deprecated" ∨ tag.1 ∈ taggedKeywords) :
    Documented doc.nonempty? := by
  intro d hd
  unfold Doc.nonempty? at hd
  split at hd
  · cases hd
  · cases hd
    exact h

theorem deprecatedTags_documented (node : Json) :
    ∀ tag ∈ deprecatedTags node, tag.1 = "deprecated" := by
  intro tag hm
  unfold deprecatedTags at hm
  split at hm
  · rw [List.mem_singleton.1 hm]
  · cases hm

theorem documented_doc? (node : Json) : Documented (doc? node) := by
  refine documented_nonempty? fun tag hm => ?_
  rcases List.mem_append.1 hm with hm | hm
  · exact .inl (deprecatedTags_documented node tag hm)
  · obtain ⟨keyword, hk, ht⟩ := List.mem_filterMap.1 hm
    obtain ⟨value, -, rfl⟩ := Option.map_eq_some_iff.1 ht
    exact .inr hk

section
variable {index : Index} {state : State} {P : TypeExpr → Prop} (hp : Preserved index state P)
  {node : Json} {typed : InnerTyped node} {place : Pointer}
  (inner : ∀ (i : Inner node) p type, index.get? p = some i.node → typed i p type → P type)

theorem Noted.preserved (hp : Preserved index state P) {kind : WarningKind} {note : String}
    {type : TypeExpr} (h : Noted state kind place note type) (hn : index.get? place = some node)
    (degrades : Degrades node (ChoiceHasNull index state node place) kind note) : P type := by
  obtain ⟨rfl, warned⟩ := h
  exact hp.noted note ⟨kind, place, node, warned, hn, degrades⟩

/-- The schemas of a list with their types, each at a place of the document. -/
theorem ListTyped.placed {number : Nat} {inners : List (Inner node)} {types : List TypeExpr}
    (h : ListTyped typed place number inners types)
    (stand : ∀ (n : Nat) (i : Inner node), inners[n]? = some i →
      index.get? (place.element (number + n)) = some i.node) :
    List.Forall₂ (fun i type => ∃ p, index.get? p = some i.node ∧ typed i p type) inners types := by
  induction h with
  | nil => exact .nil
  | @cons number i type inners types first rest ih =>
    refine .cons ⟨_, stand 0 i rfl, first⟩ (ih fun n j hn => ?_)
    have := stand (n + 1) j (by simpa using hn)
    rwa [show number + (n + 1) = number + 1 + n by omega] at this

theorem ListTyped.placed_of_stands {inners : List (Inner node)} {types : List TypeExpr}
    (h : ListTyped typed place 0 inners types) (stand : ListStands index place inners) :
    List.Forall₂ (fun i type => ∃ p, index.get? p = some i.node ∧ typed i p type) inners types :=
  h.placed fun n i hn => by simpa using stand n i hn

include inner

theorem ListTyped.preserved_of_stands {inners : List (Inner node)} {types : List TypeExpr}
    (h : ListTyped typed place 0 inners types) (stand : ListStands index place inners) :
    ∀ type ∈ types, P type := by
  intro type hm
  obtain ⟨i, -, p, here, made⟩ := exists_left_of_forall₂ (h.placed_of_stands stand) hm
  exact inner i p type here made

theorem FieldsTyped.preserved {fields : List (String × Inner node)} {types : List TypeExpr}
    (h : FieldsTyped typed place fields types) (stand : FieldsStand index place fields)
    (required : List String) :
    (∀ type ∈ types, P type) ∧ List.Forall₂ (PropertyWith P) (fields.map (·.1))
      (List.zipWith (fun (field : String × Inner node) type =>
        propertyOf required field.1 field.2.node type) fields types) := by
  induction h with
  | nil => exact ⟨by simp, .nil⟩
  | @cons key i type fields types first rest ih =>
    have made : P type := inner i _ _ (stand.stands key i List.mem_cons_self) first
    obtain ⟨later, properties⟩ := ih stand.tail
    refine ⟨?_, .cons ⟨type, _, _, _, rfl, made, documented_doc? i.node⟩ properties⟩
    intro t hm
    rcases List.mem_cons.1 hm with rfl | hm
    · exact made
    · exact later t hm

include hp

omit inner in
theorem preserved_widenIndex {value : TypeExpr} {types : List TypeExpr} {anyOptional : Bool}
    (hv : P value) (ht : ∀ type ∈ types, P type) : P (widenIndex value types anyOptional) := by
  unfold widenIndex
  split
  · exact hv
  · split
    · exact hv
    · refine hp.union _ fun type hm => ?_
      simp only [List.cons_append, List.mem_cons, List.mem_append] at hm
      rcases hm with rfl | hm | hm
      · exact hv
      · exact ht type hm
      · split at hm
        · rw [List.mem_singleton.1 hm]
          exact hp.undefined
        · cases hm

theorem AdditionalTyped.preserved {additional : Additional (Inner node)} {type : Option TypeExpr}
    (h : AdditionalTyped typed place additional type)
    (stand : AdditionalStands index place additional) : ∀ t, type = some t → P t := by
  rintro t rfl
  cases additional with
  | absent | forbidden => cases h
  | any =>
    cases h
    exact hp.unknown
  | schema i =>
    obtain ⟨_, he, hi⟩ := h
    cases he
    exact inner i _ _ stand hi

theorem ObjectTyped.preserved {shape : ObjectShape (Inner node)} {type : TypeExpr}
    (h : ObjectTyped typed place shape type) (stand : CoreStands index place (.object shape)) :
    P type := by
  obtain ⟨types, additional, hf, ha, rfl⟩ := h
  obtain ⟨made, properties⟩ := hf.preserved inner stand.1 (requiredKeys shape.required)
  have signature : ∀ t, (additional.map fun value => widenIndex value types
      ((shape.properties.getD []).any fun field =>
        !(requiredKeys shape.required).contains field.1)) = some t → P t := by
    intro t ht
    obtain ⟨value, hv, rfl⟩ := Option.map_eq_some_iff.1 ht
    exact preserved_widenIndex hp (ha.preserved hp inner stand.2 value hv) made
  have := hp.object _ _ _ stand.1.distinct properties signature
  cases additional <;> exact this

theorem CoreTyped.preserved {core : Core (Inner node)} {type : TypeExpr}
    (h : CoreTyped typed place core type) (stand : CoreStands index place core) : P type := by
  cases core with
  | scalar kind => exact h ▸ hp.scalar kind
  | array items =>
    cases items with
    | absent => exact h ▸ hp.array _ hp.unknown
    | single i =>
      obtain ⟨t, rfl, hi⟩ := h
      exact hp.array t (inner i _ _ stand hi)
    | tuple inners =>
      obtain ⟨types, hl, rfl⟩ := h
      exact hp.array _ (hp.union _ (hl.preserved_of_stands inner stand))
  | object shape => exact ObjectTyped.preserved hp inner h stand

theorem BaseTyped.preserved {base : Base (Inner node)} {type : TypeExpr}
    (h : BaseTyped typed place base type) (stand : BaseStands index place base) : P type := by
  cases base with
  | one core => exact CoreTyped.preserved hp inner h stand
  | several cores =>
    obtain ⟨types, hc, rfl⟩ := h
    have made : ∀ type ∈ types, P type := by
      intro type hm
      obtain ⟨core, hcore, ht⟩ := exists_left_of_forall₂ hc hm
      exact CoreTyped.preserved hp inner ht (stand core hcore)
    exact hp.union _ made

theorem ChoiceUnderTyped.preserved {keyword : String} {inners : Option (List (Inner node))}
    {types : List TypeExpr} (h : ChoiceUnderTyped typed place keyword inners types)
    (stand : ∀ is, inners = some is → ListStands index (place.child keyword) is) :
    ∀ type ∈ types, P type := by
  cases inners with
  | none =>
    have : types = [] := h
    simp [this]
  | some is =>
    obtain ⟨ts, hl, rfl⟩ := h
    have made := hl.preserved_of_stands inner (stand is rfl)
    intro type hm
    rw [List.mem_singleton.1 hm]
    refine hp.union _ fun t ht => ?_
    unfold alternativesOf at ht
    split at ht
    · exact made t ht
    · obtain ⟨n, hn, rfl⟩ := List.mem_iff_getElem.1 ht
      rw [List.getElem_zipWith]
      unfold taggedType
      split
      · exact hp.tagged _ _ _ (made _ (List.getElem_mem _))
      · exact made _ (List.getElem_mem _)

theorem AllUnderTyped.preserved {inners : Option (List (Inner node))} {types : List TypeExpr}
    (h : AllUnderTyped typed place inners types)
    (stand : ∀ is, inners = some is → ListStands index (place.child "allOf") is) :
    ∀ type ∈ types, P type := by
  cases inners with
  | none =>
    have : types = [] := h
    simp [this]
  | some is =>
    obtain ⟨ts, hl, rfl⟩ := h
    intro type hm
    rw [List.mem_singleton.1 hm]
    exact hp.intersection _ (hl.preserved_of_stands inner (stand is rfl))

theorem BaseUnderTyped.preserved {base : Option (Base (Inner node))} {types : List TypeExpr}
    (h : BaseUnderTyped typed place base types)
    (stand : ∀ b, base = some b → BaseStands index place b) : ∀ type ∈ types, P type := by
  cases base with
  | none =>
    have : types = [] := h
    simp [this]
  | some b =>
    obtain ⟨type, hb, rfl⟩ := h
    intro t hm
    rw [List.mem_singleton.1 hm]
    exact BaseTyped.preserved hp inner hb (stand b rfl)

omit inner in
theorem NotUnderTyped.preserved {composition : Composition (Inner node)}
    {base : Option (Base (Inner node))} {types : List TypeExpr}
    (h : NotUnderTyped state place composition.not types) (hn : index.get? place = some node)
    (composite : shape node = .composite composition base) : ∀ type ∈ types, P type := by
  cases excludes : composition.not with
  | none =>
    rw [excludes] at h
    have : types = [] := h
    simp [this]
  | some schema =>
    rw [excludes] at h
    obtain ⟨type, noted, rfl⟩ := h
    intro t hm
    rw [List.mem_singleton.1 hm]
    exact noted.preserved hp hn (.excluded composite excludes)

theorem CompositeTyped.preserved {composition : Composition (Inner node)}
    {base : Option (Base (Inner node))} {type : TypeExpr} {choiceHasNull : Bool}
    (h : CompositeTyped typed place state composition base type choiceHasNull)
    (hn : index.get? place = some node) (composite : shape node = .composite composition base)
    (hc : CompositionStands index place composition)
    (hb : ∀ b, base = some b → BaseStands index place b) : P type := by
  obtain ⟨ofBase, ofAll, ofOne, ofAny, ofNot, base, all, one, any, not, rfl, -⟩ := h
  refine hp.intersection _ fun t hm => ?_
  simp only [List.mem_append] at hm
  rcases hm with (((hm | hm) | hm) | hm) | hm
  · exact base.preserved hp inner hb t hm
  · exact all.preserved hp inner hc.allOf t hm
  · exact one.preserved hp inner hc.oneOf t hm
  · exact any.preserved hp inner hc.anyOf t hm
  · exact not.preserved hp hn composite t hm

theorem ShapeTyped.preserved (expanded : ∀ entry ∈ state.expanded, P entry.2)
    {shape : Shape (Inner node)} {type : TypeExpr} {choiceHasNull : Bool}
    (h : ShapeTyped typed place index state shape type choiceHasNull)
    (hn : index.get? place = some node) (hs : Schema.shape node = shape) : P type := by
  have stand : ShapeStands index place shape := hs ▸ shape_stands hn
  cases shape with
  | any =>
    rw [h.1]
    exact hp.unknown
  | nothing =>
    rw [h.1]
    exact hp.never
  | reference reference =>
    obtain ⟨⟨target, -, ht⟩, -⟩ := h
    rcases ht with ⟨name, hname, rfl⟩ | ht
    · exact hp.named target.pointer name hname
    · exact expanded _ ht
  | enumeration values =>
    obtain ⟨⟨types, hl, rfl⟩, -⟩ := h
    refine hp.union _ fun t hm => ?_
    obtain ⟨value, hv, ht⟩ := exists_left_of_forall₂ hl hm
    exact hp.value place node value t hn (.inl ⟨values, hs, hv⟩) ht
  | enumerationWithComposition => exact h.1.preserved hp hn (.enumeration hs)
  | constant value => exact hp.value place node value type hn (.inr hs) h.1
  | composite composition base => exact CompositeTyped.preserved hp inner h hn hs stand.1 stand.2
  | structural base => exact BaseTyped.preserved hp inner h.1 stand
  | unsupported reason => exact h.1.preserved hp hn (.unsupported hs)

end

/-- What all ways of building a type preserve holds of a result, when it holds of the types
recorded before. -/
theorem NodeTyped.preserved {index : Index} {state : State} {P : TypeExpr → Prop}
    (hp : Preserved index state P) (expanded : ∀ entry ∈ state.expanded, P entry.2) (node : Json)
    (place : Pointer) (type : TypeExpr) (hn : index.get? place = some node)
    (h : NodeTyped index state node place type) : P type := by
  obtain ⟨bare, choiceHasNull, hs, hnull⟩ := nodeTyped_iff.1 h
  have made : P bare := by
    refine ShapeTyped.preserved hp (fun i p t hi ht => ?_) expanded hs hn rfl
    exact NodeTyped.preserved hp expanded i.node p t hi ht
  unfold NullTyped at hnull
  split at hnull
  · rename_i nullable
    split at hnull
    · rename_i has
      exact hnull.preserved hp hn (.null nullable ⟨bare, has ▸ hs⟩)
    · rw [hnull]
      refine hp.union _ fun t hm => ?_
      rcases List.mem_pair.1 hm with rfl | rfl
      · exact made
      · exact hp.scalar .null
  · rwa [hnull]
termination_by sizeOf node
decreasing_by exact i.smaller

/-- What all ways of building a type preserve, in every state, holds of the types recorded. -/
theorem run_expanded {index : Index} {planned : List (Pointer × String)} {path : List Pointer}
    {P : State → TypeExpr → Prop} (mono : ∀ a b type, a.Grows b → P a type → P b type)
    (kept : ∀ state : State, state.Valid index planned → Preserved index state (P state))
    {a b : State} (h : Run index path a b) (hv : a.Valid index planned)
    (before : ∀ entry ∈ a.expanded, P a entry.2) : ∀ entry ∈ b.expanded, P b entry.2 := by
  induction h with
  | refl => exact before
  | @tail b c run step ih =>
    have later : ∀ entry ∈ b.expanded, P c entry.2 := fun entry hm =>
      mono b c entry.2 step.grows (ih entry hm)
    cases step with
    | warn | promote => exact later
    | record target type outside new typed =>
      intro entry hm
      rcases List.mem_append.1 hm with hm | hm
      · exact later entry hm
      · rw [List.mem_singleton.1 hm]
        refine mono b _ type (Step.record target type outside new typed).grows ?_
        exact typed.preserved (kept b (run_valid run hv)) ih _ _ _ target.found

end ApiTypes.Typing
