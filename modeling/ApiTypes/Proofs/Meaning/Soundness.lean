import ApiTypes.Compile
import ApiTypes.Proofs.Api.Closure
import ApiTypes.Proofs.Meaning.Inhabits

/-!
# Soundness

The types of a bare map of schemas admit every value that the schemas do.

* `nodeTyped_sound`: so does the type that typing makes of a schema, in a state whose names and
  recorded types are those of the same schemas (`Meant`); the proof is by induction on why the
  value is valid, so references that go round in circles need no care;
* `assemble_sound`: so do the declared types.
-/

namespace ApiTypes.Meaning

open Api Typing Schema TypeExpr

/-- What the schemas of a document must not use. List-form `items` speak of single elements, and a
`discriminator` asks for more than the alternatives do. Keywords that no type expresses only
restrict the values further, so they need no mention. -/
structure Expressible (schema : Json) : Prop where
  discriminator : schema.get? "discriminator" = none
  items : ∀ schemas, schema.get? "items" ≠ some (.array schemas)

/-- Names are those of declarations of the same place, and recorded types those of their places. -/
structure Meant (index : Index) (state : State) (declarations : List Declaration) : Prop where
  named : ∀ place name, state.names.get? place = some name → ∃ declaration ∈ declarations,
    declaration.name = name ∧ ∃ node, index.get? place = some node ∧
      NodeTyped index state node place declaration.type
  expanded : ∀ entry ∈ state.expanded, ∃ node, index.get? entry.1 = some node ∧
    NodeTyped index state node entry.1 entry.2

/-! ## Values -/

section
variable {declarations : List Declaration} {state : State} {place : Pointer}

theorem inhabits_of_noted {kind : WarningKind} {note : String} {type : TypeExpr} (value : Json)
    (h : Noted state kind place note type) : Inhabits declarations type value := by
  rw [h.1]
  exact .unknown _ value

theorem inhabits_of_literal {listed value : Json} {type : TypeExpr}
    (h : LiteralTyped state place listed type) (same : SameValue listed value) :
    Inhabits declarations type value := by
  cases same with
  | null => exact h ▸ .literalNull
  | bool value => exact h ▸ .literalBool value
  | string value => exact h ▸ .literalString value
  | @number a b same =>
    cases a with
    | int n =>
      have h : type = .literal (if -Int.pow 2 63 ≤ n ∧ n < Int.pow 2 63 then .int n
        else .number (Binary64.ofInt n)) := h
      rw [h]
      split
      · exact .literalInt same
      · exact .literalNumber same
    | float x => exact h ▸ .literalNumber same
  | array | object => exact inhabits_of_noted _ h

end

/-! ## Kinds of value -/

section
variable {declarations : List Declaration} {node : Json} {typed : InnerTyped node} {place : Pointer}

theorem inhabits_widenIndex {value t : TypeExpr} {types : List TypeExpr} {part : Json}
    (anyOptional : Bool) (hm : t ∈ value :: types) (h : Inhabits declarations t part) :
    Inhabits declarations (widenIndex value types anyOptional) part := by
  unfold widenIndex
  split
  · exact .unknown _ part
  · split
    · rename_i empty
      rw [List.isEmpty_iff.1 empty] at hm
      rwa [← List.mem_singleton.1 hm]
    · exact inhabits_unionOf (List.mem_append_left _ hm) h

/-- Of an object type: keys that are no properties are of the type for other keys. -/
theorem inhabits_of_object {shape : ObjectShape (Inner node)} {type : TypeExpr}
    {fields : List (String × Json)} (h : ObjectTyped typed place shape type)
    (properties : ∀ key inner part, (key, inner) ∈ shape.properties.getD [] →
      (key, part) ∈ fields → ∀ p t, typed inner p t → Inhabits declarations t part)
    (required : ∀ key ∈ requiredKeys shape.required, key ∈ fields.map (·.1))
    (additional : ∀ inner key part, shape.additional = .schema inner → (key, part) ∈ fields →
      key ∉ (shape.properties.getD []).map (·.1) →
      ∀ p t, typed inner p t → Inhabits declarations t part) :
    Inhabits declarations type (.object fields) := by
  obtain ⟨types, other, hf, ha, rfl⟩ := h
  have pairs := hf.forall₂
  have declared : ∀ name t isOptional isReadonly doc,
      .property name t isOptional isReadonly doc ∈ membersOf shape types other →
        ∃ inner p, (name, inner) ∈ shape.properties.getD [] ∧ typed inner p t ∧
          isOptional = !(requiredKeys shape.required).contains name := by
    intro name t isOptional isReadonly doc hm
    rcases List.mem_append.1 hm with hm | hm
    · obtain ⟨⟨key, inner⟩, hmem, t', -, ⟨p, ht⟩, same⟩ := exists_of_mem_zipWith pairs hm
      cases same
      exact ⟨inner, p, hmem, ht, rfl⟩
    · obtain ⟨_, -, he⟩ := List.mem_map.1 hm
      cases he
  refine .object ?_ ?_ ?_
  · intro name t isOptional isReadonly doc hm part hp
    obtain ⟨inner, p, hmem, ht, -⟩ := declared _ _ _ _ _ hm
    exact properties name inner part hmem hp p t ht
  · intro name t isReadonly doc hm
    obtain ⟨inner, p, hmem, ht, hr⟩ := declared _ _ _ _ _ hm
    exact required name (by simpa using hr)
  · rintro key t hm ⟨k, part⟩ hfield
    rcases List.mem_append.1 hm with hm | hm
    · obtain ⟨_, -, _, -, -, same⟩ := exists_of_mem_zipWith pairs hm
      cases same
    · obtain ⟨value, hv, same⟩ := List.mem_map.1 hm
      cases same
      have hv : other = some value := by simpa using hv
      subst hv
      by_cases hk : k ∈ (shape.properties.getD []).map (·.1)
      · obtain ⟨⟨k, inner⟩, hmem, rfl⟩ := List.mem_map.1 hk
        obtain ⟨t, ht, p, typed⟩ := exists_right_of_forall₂ pairs hmem
        exact inhabits_widenIndex _ (List.mem_cons_of_mem _ ht)
          (properties k inner part hmem hfield p t typed)
      · refine inhabits_widenIndex _ List.mem_cons_self ?_
        cases hadd : shape.additional with
        | absent | forbidden =>
          rw [hadd] at ha
          cases ha
        | any =>
          rw [hadd] at ha
          cases ha
          exact .unknown none part
        | schema inner =>
          rw [hadd] at ha
          obtain ⟨t, he, ht⟩ := ha
          cases he
          exact additional inner k part hadd hfield hk _ value ht

end

/-! ## Schemas without reference -/

/-- A value does what a schema asks for, where the parts of the schema are understood by the types
they are given. -/
structure Fits (declarations : List Declaration) {node : Json} (typed : InnerTyped node)
    (value : Json) : Prop where
  admits : Admits node value
  properties : ∀ inners, node.innerFields? "properties" = some inners →
    ∀ key inner part, (key, inner) ∈ inners → (key, part) ∈ value.fields →
      ∀ p t, typed inner p t → Inhabits declarations t part
  additional : ∀ inner, node.inner? "additionalProperties" = some inner →
    ∀ key part, (key, part) ∈ value.fields → key ∉ propertyKeys node →
      ∀ p t, typed inner p t → Inhabits declarations t part
  items : ∀ inner, node.inner? "items" = some inner → ∀ part ∈ value.items,
    ∀ p t, typed inner p t → Inhabits declarations t part
  allOf : ∀ inners, node.innerItems? "allOf" = some inners → ∀ inner ∈ inners,
    ∀ p t, typed inner p t → Inhabits declarations t value
  oneOf : ∀ inners, node.innerItems? "oneOf" = some inners → ∃ inner ∈ inners,
    ∀ p t, typed inner p t → Inhabits declarations t value
  anyOf : ∀ inners, node.innerItems? "anyOf" = some inners → ∃ inner ∈ inners,
    ∀ p t, typed inner p t → Inhabits declarations t value

theorem propertyKeys_eq (node : Json) :
    propertyKeys node = ((objectShape node).properties.getD []).map (·.1) := by
  cases hi : node.innerFields? "properties" with
  | some inners =>
    have := Json.get?_of_innerFields hi
    simp [propertyKeys, objectShape, hi, this, Json.object?]
  | none =>
    have none : (node.get? "properties").bind Json.object? = none := by
      cases hp : node.get? "properties" with
      | none => rfl
      | some value =>
        cases value with
        | object fields =>
          simp only [Json.innerFields?] at hi
          split at hi
          · cases hi
          · rename_i other
            exact absurd hp (other fields)
        | _ => rfl
    simp [propertyKeys, objectShape, hi, none]

section
variable {declarations : List Declaration} {node value : Json} {typed : InnerTyped node}
  {place : Pointer} (fits : Fits declarations typed value) (expressible : Expressible node)
include fits

theorem inhabits_of_objectShape {type : TypeExpr} {fields : List (String × Json)}
    (h : ObjectTyped typed place (objectShape node) type) (hv : value = .object fields) :
    Inhabits declarations type value := by
  subst hv
  refine inhabits_of_object h ?_ ?_ ?_
  · intro key inner part hm hp
    cases hi : node.innerFields? "properties" with
    | none => simp [objectShape, hi] at hm
    | some inners => exact fits.properties inners hi key inner part (by simpa [objectShape, hi] using hm) hp
  · intro key hm
    obtain ⟨item, hitem, hs⟩ := List.mem_filterMap.1 hm
    have text : item = .string key := by
      cases item <;> simp [Json.string?] at hs
      rw [hs]
    simp only [objectShape] at hitem
    cases hr : (node.get? "required").bind Json.array? with
    | none => simp [hr] at hitem
    | some keys =>
      obtain ⟨found, hf, ha⟩ := Option.bind_eq_some_iff.1 hr
      have array : found = .array keys := by
        cases found <;> simp [Json.array?] at ha
        rw [ha]
      rw [hr] at hitem
      exact fits.admits.required keys (array ▸ hf) key (text ▸ hitem) rfl
  · intro inner key part ha hp hk
    have hi : node.inner? "additionalProperties" = some inner := by
      simp only [objectShape, additional] at ha
      split at ha
      · cases ha
      · rename_i found hfound
        split at ha <;> cases ha
        exact hfound
    exact fits.additional inner hi key part hp (propertyKeys_eq node ▸ hk)

include expressible

theorem inhabits_of_items {type : TypeExpr} {parts : List Json}
    (h : ItemsTyped typed place (items node) type) (hv : value = .array parts) :
    Inhabits declarations type value := by
  subst hv
  unfold items at h
  split at h
  · rename_i inners hi
    exact absurd (Json.get?_of_innerItems hi) (expressible.items _)
  · split at h
    · rename_i inner hi
      obtain ⟨t, rfl, ht⟩ := h
      exact .array fun part hm => fits.items inner hi part hm _ t ht
    · rw [show type = _ from h]
      exact .array fun part _ => .unknown none part

theorem inhabits_of_core {kind : String} {core : Core (Inner node)} {type : TypeExpr}
    (hk : coreOf? node kind = .ok core) (hv : HasKind value kind)
    (h : CoreTyped typed place core type) : Inhabits declarations type value := by
  cases hv with
  | object fields =>
    cases hk
    exact inhabits_of_objectShape fits h rfl
  | array parts =>
    cases hk
    exact inhabits_of_items fits expressible h rfl
  | string text =>
    cases hk
    exact h ▸ .string text
  | number n | integer =>
    cases hk
    exact h ▸ .number _
  | boolean b =>
    cases hk
    exact h ▸ .boolean b
  | null =>
    cases hk
    exact h ▸ .literalNull

omit fits expressible in
theorem core_of_mem {kinds : List Json} {cores : List (Core (Inner node))} {kind : String}
    (h : coresOf? node kinds = .ok cores) (hm : .string kind ∈ kinds) :
    ∃ core ∈ cores, coreOf? node kind = .ok core := by
  induction kinds generalizing cores with
  | nil => cases hm
  | cons first rest ih =>
    unfold coresOf? at h
    split at h
    · rename_i he
      cases he
    · rename_i name rest' he
      cases he
      split at h
      · cases h
      · rename_i core hc
        split at h
        · cases h
        · rename_i later hl
          cases h
          rcases List.mem_cons.1 hm with he | hm
          · cases he
            exact ⟨core, List.mem_cons_self, hc⟩
          · obtain ⟨found, hf, hk⟩ := ih hl hm
            exact ⟨found, List.mem_cons_of_mem _ hf, hk⟩
    · cases h

theorem inhabits_of_base {base : Base (Inner node)} {type : TypeExpr}
    (hb : base? node = .ok (some base)) (h : BaseTyped typed place base type) :
    Inhabits declarations type value := by
  have admitted := fits.admits.kind
  unfold KindAdmitted at admitted
  unfold base? at hb
  cases ht : node.get? "type" with
  | none =>
    rw [ht] at admitted hb
    dsimp only at admitted hb
    split at hb
    · rename_i keywords
      rw [if_pos keywords] at admitted
      cases hb
      have core : coreOf? node "object" = .ok (.object (objectShape node)) := rfl
      exact inhabits_of_core fits expressible core admitted h
    · rename_i keywords
      rw [if_neg keywords] at admitted
      split at hb
      · rename_i under
        rw [if_pos under] at admitted
        cases hb
        have core : coreOf? node "array" = .ok (.array (items node)) := rfl
        exact inhabits_of_core fits expressible core admitted h
      · cases hb
  | some found =>
    rw [ht] at admitted hb
    cases found with
    | string kind =>
      dsimp only at admitted hb
      cases hk : coreOf? node kind with
      | error e => simp [hk, Except.map] at hb
      | ok core =>
        simp only [hk, Except.map, Except.ok.injEq, Option.some.injEq] at hb
        subst hb
        exact inhabits_of_core fits expressible hk admitted h
    | array kinds =>
      dsimp only at admitted hb
      obtain ⟨kind, hm, hv⟩ := admitted
      cases hk : coresOf? node kinds with
      | error e => simp [hk, Except.map] at hb
      | ok cores =>
        obtain ⟨core, hcore, hkind⟩ := core_of_mem hk hm
        simp only [hk, Except.map, Except.ok.injEq] at hb
        split at hb
        · cases hb
        · cases hb
          rw [List.mem_singleton.1 hcore] at hkind
          exact inhabits_of_core fits expressible hkind hv h
        · cases hb
          obtain ⟨types, hc, rfl⟩ := h
          obtain ⟨type, htype, typed⟩ := exists_right_of_forall₂ hc hcore
          exact inhabits_unionOf htype (inhabits_of_core fits expressible hkind hv typed)
    | _ => cases hb

omit fits expressible in
theorem inhabits_of_choice {keyword : String} {inners : Option (List (Inner node))}
    {types : List TypeExpr} (h : ChoiceUnderTyped typed place keyword inners types)
    (plain : discriminator? node = none)
    (fitting : ∀ is, inners = some is → ∃ inner ∈ is,
      ∀ p t, typed inner p t → Inhabits declarations t value) :
    ∀ type ∈ types, Inhabits declarations type value := by
  cases inners with
  | none =>
    have none : types = [] := h
    simp [none]
  | some is =>
    obtain ⟨ts, hl, rfl⟩ := h
    obtain ⟨inner, hm, inside⟩ := fitting is rfl
    obtain ⟨t, ht, p, typed⟩ := exists_right_of_forall₂ hl.forall₂ hm
    have alternatives : alternativesOf node is ts = ts := by
      unfold alternativesOf
      rw [plain]
    intro type htype
    rw [List.mem_singleton.1 htype, alternatives]
    exact inhabits_unionOf ht (inside p t typed)

theorem inhabits_of_composite {state : State} {base : Option (Base (Inner node))}
    {type : TypeExpr} {choiceHasNull : Bool} (hb : base? node = .ok base)
    (h : CompositeTyped typed place state (composition node) base type choiceHasNull) :
    Inhabits declarations type value := by
  have plain : discriminator? node = none := by
    rw [discriminator?, expressible.discriminator]
    rfl
  obtain ⟨ofBase, ofAll, ofOne, ofAny, ofNot, base_typed, all, one, any, none, rfl, -⟩ := h
  refine inhabits_intersectionOf fun t hm => ?_
  simp only [List.mem_append] at hm
  rcases hm with (((hm | hm) | hm) | hm) | hm
  · cases base with
    | none =>
      have none : ofBase = [] := base_typed
      simp [none] at hm
    | some base =>
      obtain ⟨found, hfound, rfl⟩ := base_typed
      rw [List.mem_singleton.1 hm]
      exact inhabits_of_base fits expressible hb hfound
  · cases hi : (composition node).allOf with
    | none =>
      rw [hi] at all
      have none : ofAll = [] := all
      simp [none] at hm
    | some inners =>
      rw [hi] at all
      obtain ⟨ts, hl, rfl⟩ := all
      rw [List.mem_singleton.1 hm]
      refine inhabits_intersectionOf fun t ht => ?_
      obtain ⟨inner, hinner, p, typed⟩ := exists_left_of_forall₂ hl.forall₂ ht
      exact fits.allOf inners hi inner hinner p t typed
  · exact inhabits_of_choice one plain fits.oneOf t hm
  · exact inhabits_of_choice any plain fits.anyOf t hm
  · unfold NotUnderTyped at none
    split at none
    · simp [none] at hm
    · obtain ⟨found, hn, rfl⟩ := none
      rw [List.mem_singleton.1 hm]
      exact inhabits_of_noted value hn

theorem inhabits_of_objectSchema {index : Index} {state : State} {type : TypeExpr}
    {choiceHasNull : Bool}
    (h : ShapeTyped typed place index state (objectSchemaShape node) type choiceHasNull) :
    Inhabits declarations type value := by
  unfold objectSchemaShape at h
  split at h
  · rename_i values he
    split at h
    · obtain ⟨⟨types, hl, rfl⟩, -⟩ := h
      obtain ⟨found, hf, ha⟩ := Option.bind_eq_some_iff.1 he
      have array : found = .array values := by
        cases found <;> simp [Json.array?] at ha
        rw [ha]
      obtain ⟨item, hm, same⟩ := fits.admits.enum values (array ▸ hf)
      obtain ⟨t, ht, typed⟩ := exists_right_of_forall₂ hl hm
      exact inhabits_unionOf ht (inhabits_of_literal typed same)
    · exact inhabits_of_noted value h.1
  · split at h
    · rename_i constant hc
      exact inhabits_of_literal h.1 (fits.admits.const constant hc)
    · split at h
      · exact inhabits_of_noted value h.1
      · rename_i base hb
        split at h
        · split at h
          · exact inhabits_of_base fits expressible hb h.1
          · unfold bareShape at h
            dsimp only at h
            split at h
            · rw [h.1]
              exact .unknown none value
            · exact inhabits_of_noted value h.1
        · exact inhabits_of_composite fits expressible hb h

end

/-! ## All schemas -/

section
variable {declarations : List Declaration} {state : State} {node : Json} {place : Pointer}
  {bare type : TypeExpr} {choiceHasNull : Bool}

theorem inhabits_of_null (h : NullTyped state node place bare choiceHasNull type)
    (nullable : isNullable node = true) : Inhabits declarations type .null := by
  unfold NullTyped at h
  rw [if_pos nullable] at h
  split at h
  · exact inhabits_of_noted .null h
  · rw [h]
    exact inhabits_unionOf (List.mem_pair.2 (.inr rfl)) .literalNull

theorem inhabits_of_bare {value : Json} (h : NullTyped state node place bare choiceHasNull type)
    (inside : Inhabits declarations bare value) : Inhabits declarations type value := by
  unfold NullTyped at h
  split at h
  · split at h
    · exact inhabits_of_noted value h
    · rw [h]
      exact inhabits_unionOf List.mem_cons_self inside
  · rwa [h]

end

theorem shape_of_reference {node : Json} {reference : String}
    (h : reference? node = some reference) : shape node = .reference reference := by
  cases node with
  | object fields => simp only [shape, h]
  | _ => simp [reference?, Json.text?, Json.get?] at h

/-- What is valid against a schema is of the type that typing makes of it. -/
theorem nodeTyped_sound {index : Index} {state : State} {declarations : List Declaration}
    (meant : Meant index state declarations)
    (expressible : ∀ schema, IsSchema index schema → Expressible schema) {schema value : Json}
    (h : Valid index schema value) :
    IsSchema index schema → ∀ place type, NodeTyped index state schema place type →
      Inhabits declarations type value := by
  induction h with
  | always value =>
    intro _ place type ht
    obtain ⟨bare, choiceHasNull, hs, hn⟩ := nodeTyped_iff.1 ht
    refine inhabits_of_bare hn ?_
    rw [show bare = .unknown none from hs.1]
    exact .unknown none value
  | null nullable =>
    intro _ place type ht
    obtain ⟨bare, choiceHasNull, -, hn⟩ := nodeTyped_iff.1 ht
    exact inhabits_of_null hn nullable
  | @reference schema value reference target refers leads _ ih =>
    intro inside place type ht
    have target_schema := IsSchema.target inside refers leads
    obtain ⟨bare, choiceHasNull, hs, hn⟩ := nodeTyped_iff.1 ht
    refine inhabits_of_bare hn ?_
    rw [shape_of_reference refers] at hs
    obtain ⟨⟨found, hf, typed⟩, -⟩ := hs
    rw [leads] at hf
    cases hf
    rcases typed with ⟨name, hname, rfl⟩ | recorded
    · obtain ⟨declaration, hd, rfl, node, hp, typed⟩ := meant.named _ _ hname
      rw [target.found] at hp
      cases hp
      exact .ref hd (ih target_schema _ _ typed)
    · obtain ⟨node, hp, typed⟩ := meant.expanded _ recorded
      rw [target.found] at hp
      cases hp
      exact ih target_schema _ _ typed
  | @keywords fields value one any plain admits properties additional items allOf oneOf ofOne anyOf
      ofAny ih_properties ih_additional ih_items ih_allOf ih_one ih_any =>
    intro inside place type ht
    obtain ⟨bare, choiceHasNull, hs, hn⟩ := nodeTyped_iff.1 ht
    refine inhabits_of_bare hn ?_
    have shape : shape (.object fields) = objectSchemaShape (.object fields) := by
      simp only [Schema.shape, plain]
    rw [shape] at hs
    refine inhabits_of_objectSchema ?_ (expressible _ inside) hs
    refine ⟨admits, ?_, ?_, ?_, ?_, ?_, ?_⟩
    · intro inners hi key inner part hm hp p t typed
      have under := Json.get?_of_innerFields hi
      have member := List.mem_map_of_mem (f := fun f => (f.1, f.2.node)) hm
      exact ih_properties _ under key inner.node part member hp (.property inside under member) p t
        typed
    · intro inner hi key part hp hk p t typed
      have under := Json.get?_of_inner hi
      have schema := IsSchema.single inside (by simp) under
      exact ih_additional _ under key part hp hk schema p t typed
    · intro inner hi part hp p t typed
      have under := Json.get?_of_inner hi
      have schema := IsSchema.single inside (by simp) under
      exact ih_items _ under part hp schema p t typed
    · intro inners hi inner hm p t typed
      have under := Json.get?_of_innerItems hi
      have member := List.mem_map_of_mem (f := (·.node)) hm
      exact ih_allOf _ under _ member (.listed inside (by simp) under member) p t typed
    · intro inners hi
      have under := Json.get?_of_innerItems hi
      have member := oneOf _ under
      obtain ⟨inner, hm, rfl⟩ := List.mem_map.1 member
      exact ⟨inner, hm, ih_one _ under (.listed inside (by simp) under member)⟩
    · intro inners hi
      have under := Json.get?_of_innerItems hi
      have member := anyOf _ under
      obtain ⟨inner, hm, rfl⟩ := List.mem_map.1 member
      exact ⟨inner, hm, ih_any _ under (.listed inside (by simp) under member)⟩

/-! ## Declarations -/

section
variable {index : Index} {dialect : Dialect} {candidates : List Candidate} {state : State}
  {declared promoted : List Declaration}
  (h : Assembled index dialect true candidates state declared promoted)
include h

theorem collected_raw :
    (∀ candidate ∈ candidates, ∃ here name, candidate = .component here .schema name) ∧
    ∀ location ∈ index.locations, location.1.depth = 1 →
      ∃ name, .component ⟨location.1, location.2⟩ .schema name ∈ candidates := by
  obtain ⟨names, collected⟩ := h.collected
  exact candidates_raw.of_ok collected

/-- Every declaration of a bare map of schemas is of the type made of the schema at its place. -/
theorem declaration_typed {declaration : Declaration} (hm : declaration ∈ declared ++ promoted) :
    ∃ node, index.get? declaration.pointer = some node ∧
      NodeTyped index state node declaration.pointer declaration.type := by
  rcases List.mem_append.1 hm with hm | hm
  · obtain ⟨blocks, hb, rfl⟩ := h.declared
    obtain ⟨block, hblock, hm⟩ := List.mem_flatten.1 hm
    obtain ⟨candidate, hc, made⟩ := exists_left_of_forall₂ hb hblock
    obtain ⟨here, name, rfl⟩ := (collected_raw h).1 candidate hc
    obtain ⟨type, typed, rfl⟩ := made
    rw [List.mem_singleton.1 hm]
    exact ⟨here.node, h.stand _ hc, typed⟩
  · obtain ⟨node, hn, typed, -⟩ := h.promoted declaration hm
    exact ⟨node, hn, typed⟩

theorem assembled_meant : Meant index state (declared ++ promoted) := by
  refine ⟨fun place name hname => ?_, h.valid.expanded⟩
  have entry := NameTable.mem_of_get? hname
  rw [← h.names_eq] at entry
  obtain ⟨declaration, hm, same⟩ := List.mem_map.1 entry
  cases same
  exact ⟨declaration, hm, rfl, declaration_typed h hm⟩

theorem exists_declaration {place : Pointer} {node : Json} (top : place.depth = 1)
    (hn : index.get? place = some node) :
    ∃ declaration ∈ declared ++ promoted, declaration.pointer = place := by
  obtain ⟨name, hc⟩ := (collected_raw h).2 (place, node) (Index.mem_locations hn) top
  obtain ⟨blocks, hb, rfl⟩ := h.declared
  obtain ⟨block, hblock, type, -, rfl⟩ := exists_right_of_forall₂ hb hc
  refine ⟨_, List.mem_append_left _ (List.mem_flatten.2 ⟨_, hblock, List.mem_singleton_self _⟩), rfl⟩

end

/-- Of a bare map of schemas that assembles: an entry has a declaration, and every value that is
valid against the entry's schema is of the type declared. -/
theorem assemble_sound {document : Document} {dialect : Dialect} {assembly : Assembly}
    (h : assemble (indexOf document dialect true) dialect true = .ok assembly)
    (expressible : ∀ schema, IsSchema (indexOf document dialect true) schema → Expressible schema)
    {key : String} {schema : Json} (entry : document.root.get? key = some schema) :
    (∃ declaration ∈ assembly.declarations, declaration.pointer = ⟨[key]⟩) ∧
    ∀ declaration ∈ assembly.declarations, declaration.pointer = ⟨[key]⟩ →
      ∀ value, Valid (indexOf document dialect true) schema value →
        Inhabits assembly.declarations declaration.type value := by
  have stands : (indexOf document dialect true).get? ⟨[key]⟩ = some schema :=
    Index.get?_key (Index.get?_root _) entry
  obtain ⟨_, _, declared, promoted, state, -, -, assembled, rfl⟩ := assemble_runs h
  refine ⟨exists_declaration assembled rfl stands, ?_⟩
  intro declaration hm place value valid
  obtain ⟨node, hn, typed⟩ := declaration_typed assembled hm
  rw [place, stands] at hn
  cases hn
  exact nodeTyped_sound (assembled_meant assembled) expressible valid (.entry rfl stands) _ _ typed

/-- The schema of a chain of whole numbers. -/
def chainSchema : Json :=
  .object
    [("type", .string "object"),
      ("properties", .object
        [("value", .object [("type", .string "integer")]),
          ("next", .object [("$ref", .string "#/definitions/Chain")])]),
      ("required", .array [.string "value"])]

def chainSchemas : Document :=
  .ofJson (.object [("Chain", chainSchema)])

theorem expressible_chainSchemas (schema : Json)
    (h : IsSchema (indexOf chainSchemas .swagger2 true) schema) : Expressible schema := by
  have all : ∀ location ∈ (indexOf chainSchemas .swagger2 true).locations,
      (location.2.get? "discriminator").isNone = true ∧
        (location.2.get? "items").isNone = true := by
    decide +kernel
  obtain ⟨place, stands⟩ := h.stands
  obtain ⟨discriminator, items⟩ := all _ (Index.mem_locations stands)
  refine ⟨by simpa using discriminator, fun schemas hs => ?_⟩
  rw [hs] at items
  cases items

theorem valid_integer {index : Index} (n : Int) :
    Valid index (.object [("type", .string "integer")]) (.number (.int n)) := by
  refine @Valid.keywords index _ _ .null .null rfl ⟨?_, ?_, .integer trivial, ?_⟩
    ?_ ?_ ?_ ?_ ?_ ?_ ?_ ?_
  all_goals
    intros
    simp_all [Json.get?, List.lookup_cons]

theorem valid_chain {index : Index} {fields : List (String × Json)}
    (present : "value" ∈ fields.map (·.1))
    (value : ∀ part, ("value", part) ∈ fields → ∃ n, part = .number (.int n))
    (next : ∀ part, ("next", part) ∈ fields →
      Valid index (.object [("$ref", .string "#/definitions/Chain")]) part) :
    Valid index chainSchema (.object fields) := by
  refine @Valid.keywords index _ _ .null .null rfl ⟨?_, ?_, .object fields, ?_⟩
    ?_ ?_ ?_ ?_ ?_ ?_ ?_ ?_
  case refine_3 =>
    intro keys hk key hm _
    cases hk
    cases List.mem_singleton.1 hm
    exact present
  case refine_4 =>
    intro schemas hs key schema part hm hp
    cases hs
    rcases List.mem_pair.1 hm with same | same
    · cases same
      obtain ⟨n, rfl⟩ := value part hp
      exact valid_integer n
    · cases same
      exact next part hp
  all_goals
    intros
    simp_all [Json.get?, List.lookup_cons]

/-- A chain of two numbers is of the type declared for chains. -/
theorem assemble_sound_chain :
    ∃ assembly, assemble (indexOf chainSchemas .swagger2 true) .swagger2 true = .ok assembly ∧
      ∃ declaration ∈ assembly.declarations, declaration.pointer = ⟨["Chain"]⟩ ∧
        Inhabits assembly.declarations declaration.type
          (.object [("value", .number (.int 1)),
            ("next", .object [("value", .number (.int 2))])]) := by
  have succeeds : (assemble (indexOf chainSchemas .swagger2 true) .swagger2 true).isOk = true := by
    decide +kernel
  cases he : assemble (indexOf chainSchemas .swagger2 true) .swagger2 true with
  | error error =>
    rw [he] at succeeds
    cases succeeds
  | ok assembly =>
    have entry : chainSchemas.root.get? "Chain" = some chainSchema := by
      rfl
    have leads : ((Pointer.ofReference? "#/definitions/Chain").bind
        (indexOf chainSchemas .swagger2 true).locate?).map (·.pointer) = some ⟨["Chain"]⟩ := by
      decide +kernel
    obtain ⟨target, ht, place⟩ := Option.map_eq_some_iff.1 leads
    have same : target.node = chainSchema := by
      have found := target.found
      rw [place] at found
      exact (Option.some.inj (found.symm.trans (Index.get?_key (Index.get?_root _) entry)))
    have rest : Valid (indexOf chainSchemas .swagger2 true)
        (.object [("$ref", .string "#/definitions/Chain")])
        (.object [("value", .number (.int 2))]) := by
      refine .reference rfl ht ?_
      rw [same]
      exact valid_chain (by simp) (by simp) (by simp)
    have valid : Valid (indexOf chainSchemas .swagger2 true) chainSchema
        (.object [("value", .number (.int 1)),
          ("next", .object [("value", .number (.int 2))])]) := by
      refine valid_chain (by simp) (by simp) ?_
      intro part hm
      have hm : part = .object [("value", .number (.int 2))] := by simpa using hm
      exact hm ▸ rest
    obtain ⟨⟨declaration, hd, at_place⟩, sound⟩ :=
      assemble_sound he expressible_chainSchemas entry
    exact ⟨assembly, rfl, declaration, hd, at_place, sound declaration hd at_place _ valid⟩

end ApiTypes.Meaning
