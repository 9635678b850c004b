import ApiTypes.Proofs.Spelling
import ApiTypes.Typing.Node

/-!
# Shapes of respelled schemas

Schemas that are respellings of each other have the same shape, over schemas that are respellings
again. `shape_met` says so, part by part: the schemas inside are met at their places (`Met`), lists
have the same length and fields the same names. Only texts may differ: those of references, and
the reason why a shape is not supported, where it quotes one.
-/

namespace ApiTypes.Schema

open Typing

/-- The places of the schemas inside a schema, by the keywords that hold them. -/
inductive InnerPlace (place : Pointer) (node : Json) : Pointer → Prop
  | property (key : String) : InnerPlace place node ((place.child "properties").child key)
  | additional : InnerPlace place node (place.child "additionalProperties")
  | items (single : (node.get? "items").bind Json.array? = none) :
      InnerPlace place node (place.child "items")
  | item (number : Nat) : InnerPlace place node ((place.child "items").element number)
  | listed (keyword : String) (number : Nat) (composes : keyword ∈ ["allOf", "oneOf", "anyOf"]) :
      InnerPlace place node ((place.child keyword).element number)

/-- A relation of the schemas inside two nodes, by their place. -/
abbrev InnerMet (node node' : Json) := Pointer → Inner node → Inner node' → Prop

section
variable {node node' : Json} (met : InnerMet node node') (place : Pointer)

/-- Listed schemas are met at the same places, numbered from the given one on. -/
inductive ListMet : Nat → List (Inner node) → List (Inner node') → Prop
  | nil {number : Nat} : ListMet number [] []
  | cons {number : Nat} {inner : Inner node} {inner' : Inner node'} {inners : List (Inner node)}
      {inners' : List (Inner node')} (first : met (place.element number) inner inner')
      (rest : ListMet (number + 1) inners inners') :
      ListMet number (inner :: inners) (inner' :: inners')

def FieldsMet : List (String × Inner node) → List (String × Inner node') → Prop :=
  List.Forall₂ fun field field' => field'.1 = field.1 ∧ met (place.child field.1) field.2 field'.2

inductive AdditionalMet : Additional (Inner node) → Additional (Inner node') → Prop
  | absent : AdditionalMet .absent .absent
  | forbidden : AdditionalMet .forbidden .forbidden
  | any : AdditionalMet .any .any
  | schema {inner : Inner node} {inner' : Inner node'}
      (inside : met (place.child "additionalProperties") inner inner') :
      AdditionalMet (.schema inner) (.schema inner')

structure ObjectMet (shape : ObjectShape (Inner node)) (shape' : ObjectShape (Inner node')) :
    Prop where
  properties : FieldsMet met (place.child "properties") (shape.properties.getD [])
    (shape'.properties.getD [])
  required : requiredKeys shape'.required = requiredKeys shape.required
  additional : AdditionalMet met place shape.additional shape'.additional

inductive ItemsMet : Items (Inner node) → Items (Inner node') → Prop
  | absent : ItemsMet .absent .absent
  | single {inner : Inner node} {inner' : Inner node'}
      (inside : met (place.child "items") inner inner') : ItemsMet (.single inner) (.single inner')
  | tuple {inners : List (Inner node)} {inners' : List (Inner node')}
      (listed : ListMet met (place.child "items") 0 inners inners') :
      ItemsMet (.tuple inners) (.tuple inners')

inductive CoreMet : Core (Inner node) → Core (Inner node') → Prop
  | scalar (kind : ScalarKind) : CoreMet (.scalar kind) (.scalar kind)
  | array {items : Items (Inner node)} {items' : Items (Inner node')}
      (inside : ItemsMet met place items items') : CoreMet (.array items) (.array items')
  | object {shape : ObjectShape (Inner node)} {shape' : ObjectShape (Inner node')}
      (inside : ObjectMet met place shape shape') : CoreMet (.object shape) (.object shape')

inductive BaseMet : Base (Inner node) → Base (Inner node') → Prop
  | one {core : Core (Inner node)} {core' : Core (Inner node')}
      (inside : CoreMet met place core core') : BaseMet (.one core) (.one core')
  | several {cores : List (Core (Inner node))} {cores' : List (Core (Inner node'))}
      (each : List.Forall₂ (CoreMet met place) cores cores') :
      BaseMet (.several cores) (.several cores')

structure CompositionMet (composition : Composition (Inner node))
    (composition' : Composition (Inner node')) : Prop where
  allOf : Option.Rel (ListMet met (place.child "allOf") 0) composition.allOf composition'.allOf
  oneOf : Option.Rel (ListMet met (place.child "oneOf") 0) composition.oneOf composition'.oneOf
  anyOf : Option.Rel (ListMet met (place.child "anyOf") 0) composition.anyOf composition'.anyOf
  not : composition'.not.isSome = composition.not.isSome

/-- References are those of the nodes, and values of one type. -/
inductive ShapeMet : Shape (Inner node) → Shape (Inner node') → Prop
  | any : ShapeMet .any .any
  | nothing : ShapeMet .nothing .nothing
  | reference {reference reference' : String} (written : reference? node = some reference)
      (written' : reference? node' = some reference') :
      ShapeMet (.reference reference) (.reference reference')
  | enumeration {values values' : List Json}
      (same : values'.map (literalType place) = values.map (literalType place)) :
      ShapeMet (.enumeration values) (.enumeration values')
  | enumerationWithComposition : ShapeMet .enumerationWithComposition .enumerationWithComposition
  | constant {value value' : Json} (same : literalType place value' = literalType place value) :
      ShapeMet (.constant value) (.constant value')
  | composite {base : Option (Base (Inner node))} {base' : Option (Base (Inner node'))}
      (composed : CompositionMet met place (composition node) (composition node'))
      (inside : Option.Rel (BaseMet met place) base base') :
      ShapeMet (.composite (composition node) base) (.composite (composition node') base')
  | structural {base : Base (Inner node)} {base' : Base (Inner node')}
      (inside : BaseMet met place base base') : ShapeMet (.structural base) (.structural base')
  | unsupported (reason reason' : String) : ShapeMet (.unsupported reason) (.unsupported reason')

end

/-- Both fail, or the results are related. -/
inductive OkRel {ε α β : Type} (R : α → β → Prop) : Except ε α → Except ε β → Prop
  | error (error error' : ε) : OkRel R (.error error) (.error error')
  | ok {a : α} {b : β} (related : R a b) : OkRel R (.ok a) (.ok b)

theorem okRel_cases {ε α β : Type} {R : α → β → Prop} {a : Except ε α} {b : Except ε β}
    (h : OkRel R a b) :
    (∃ error error', a = .error error ∧ b = .error error') ∨
      ∃ x y, a = .ok x ∧ b = .ok y ∧ R x y := by
  cases h with
  | error error error' => exact .inl ⟨error, error', rfl, rfl⟩
  | ok related => exact .inr ⟨_, _, rfl, rfl, related⟩

/-! ## Nodes inside -/

section
variable {node : Json} {key : String}

theorem inner?_of_get? {value : Json} (h : node.get? key = some value) :
    ∃ inner, node.inner? key = some inner ∧ inner.node = value := by
  unfold Json.inner?
  split
  · rename_i found hf
    rw [h] at hf
    cases hf
    exact ⟨_, rfl, rfl⟩
  · rename_i missing
    rw [h] at missing
    cases missing

theorem inner?_of_none (h : node.get? key = none) : node.inner? key = none := by
  unfold Json.inner?
  split
  · rename_i found hf
    rw [h] at hf
    cases hf
  · rfl

theorem innerItems?_of_array {items : List Json}
    (h : (node.get? key).bind Json.array? = some items) :
    ∃ inners, node.innerItems? key = some inners ∧ inners.map (·.node) = items := by
  unfold Json.innerItems?
  split
  · rename_i found hf
    rw [hf] at h
    cases h
    refine ⟨_, rfl, ?_⟩
    rw [List.map_map]
    exact List.attach_map_subtype_val items
  · rename_i other
    obtain ⟨value, hv, h⟩ := Option.bind_eq_some_iff.1 h
    cases value with
    | array found => exact absurd hv (other found)
    | _ => cases h

theorem innerItems?_of_none (h : (node.get? key).bind Json.array? = none) :
    node.innerItems? key = none := by
  unfold Json.innerItems?
  split
  · rename_i found hf
    rw [hf] at h
    cases h
  · rfl

theorem innerFields?_of_object {fields : List (String × Json)}
    (h : (node.get? key).bind Json.object? = some fields) :
    ∃ inners, node.innerFields? key = some inners ∧
      inners.map (fun field => (field.1, field.2.node)) = fields := by
  unfold Json.innerFields?
  split
  · rename_i found hf
    rw [hf] at h
    cases h
    refine ⟨_, rfl, ?_⟩
    rw [List.map_map]
    exact List.attach_map_subtype_val fields
  · rename_i other
    obtain ⟨value, hv, h⟩ := Option.bind_eq_some_iff.1 h
    cases value with
    | object found => exact absurd hv (other found)
    | _ => cases h

theorem innerFields?_of_none (h : (node.get? key).bind Json.object? = none) :
    node.innerFields? key = none := by
  unfold Json.innerFields?
  split
  · rename_i found hf
    rw [hf] at h
    cases h
  · rfl

end

/-! ## Lists and fields -/

section
variable {index index' : Index} (respelled : index.Respelled index') {place : Pointer}
  {node node' : Json}

/-- The schemas are those at one place inside the nodes at `place`, in two documents. -/
def Met (index index' : Index) (place : Pointer) (node node' : Json) : InnerMet node node' :=
  fun here inner inner' =>
    InnerPlace place node here ∧ index.Both index' here inner.node inner'.node

theorem listMet_of_elements {met : InnerMet node node'} {start : Nat} {inners : List (Inner node)}
    {inners' : List (Inner node')}
    (h : ∀ number, Option.Rel (met (place.element (start + number))) inners[number]?
      inners'[number]?) : ListMet met place start inners inners' := by
  induction inners generalizing start inners' with
  | nil =>
    cases inners' with
    | nil => exact .nil
    | cons first rest => exact absurd (h 0) (by rintro ⟨⟩)
  | cons first rest ih =>
    cases inners' with
    | nil => exact absurd (h 0) (by rintro ⟨⟩)
    | cons first' rest' =>
      have here := h 0
      rw [Nat.add_zero] at here
      cases here with
      | some met_first =>
        refine .cons met_first (ih fun number => ?_)
        have later := h (number + 1)
        rwa [show start + (number + 1) = start + 1 + number by omega] at later

include respelled

variable (both : index.Both index' place node node')
include both

theorem array?_rel (key : String) :
    Option.Rel (fun items items' => index.Both index' (place.child key) (.array items)
        (.array items'))
      ((node.get? key).bind Json.array?) ((node'.get? key).bind Json.array?) :=
  bind_rel (both.get?_rel respelled key) fun _ _ inner => inner.array?_rel respelled

theorem object?_rel (key : String) :
    Option.Rel (fun fields fields' => index.Both index' (place.child key) (.object fields)
        (.object fields'))
      ((node.get? key).bind Json.object?) ((node'.get? key).bind Json.object?) :=
  bind_rel (both.get?_rel respelled key) fun _ _ inner => inner.object?_rel respelled

theorem inner?_rel {key : String} (held : InnerPlace place node (place.child key)) :
    Option.Rel (Met index index' place node node' (place.child key)) (node.inner? key)
      (node'.inner? key) := by
  rcases rel_cases (both.get?_rel respelled key) with ⟨h, h'⟩ | ⟨value, value', h, h', inner⟩
  · rw [inner?_of_none h, inner?_of_none h']
    exact .none
  · obtain ⟨found, hf, rfl⟩ := inner?_of_get? h
    obtain ⟨found', hf', rfl⟩ := inner?_of_get? h'
    rw [hf, hf']
    exact .some ⟨held, inner⟩

theorem innerItems?_rel {key : String}
    (held : ∀ number, InnerPlace place node ((place.child key).element number)) :
    Option.Rel (ListMet (Met index index' place node node') (place.child key) 0)
      (node.innerItems? key) (node'.innerItems? key) := by
  rcases rel_cases (array?_rel respelled both key) with ⟨h, h'⟩ | ⟨items, items', h, h', inner⟩
  · rw [innerItems?_of_none h, innerItems?_of_none h']
    exact .none
  · obtain ⟨inners, hi, rfl⟩ := innerItems?_of_array h
    obtain ⟨inners', hi', rfl⟩ := innerItems?_of_array h'
    rw [hi, hi']
    refine .some (listMet_of_elements fun number => ?_)
    rw [Nat.zero_add]
    have element := inner.element_rel respelled number
    rw [List.getElem?_map, List.getElem?_map] at element
    rcases rel_cases element with ⟨h, h'⟩ | ⟨value, value', h, h', element⟩
    · rw [Option.map_eq_none_iff.1 h, Option.map_eq_none_iff.1 h']
      exact .none
    · obtain ⟨found, hf, rfl⟩ := Option.map_eq_some_iff.1 h
      obtain ⟨found', hf', rfl⟩ := Option.map_eq_some_iff.1 h'
      rw [hf, hf']
      exact .some ⟨held number, element⟩

theorem innerFields?_rel {key : String}
    (held : ∀ name, InnerPlace place node ((place.child key).child name)) :
    Option.Rel (FieldsMet (Met index index' place node node') (place.child key))
      (node.innerFields? key) (node'.innerFields? key) := by
  rcases rel_cases (object?_rel respelled both key) with ⟨h, h'⟩ | ⟨fields, fields', h, h', inner⟩
  · rw [innerFields?_of_none h, innerFields?_of_none h']
    exact .none
  · obtain ⟨inners, hi, rfl⟩ := innerFields?_of_object h
    obtain ⟨inners', hi', rfl⟩ := innerFields?_of_object h'
    rw [hi, hi']
    have fields := inner.fields_rel respelled
    rw [List.forall₂_map_left_iff, List.forall₂_map_right_iff] at fields
    refine .some (fields.imp ?_)
    rintro field field' ⟨same, value⟩
    exact ⟨same, held field.1, value⟩

/-! ## Values -/

theorem isSome_get?_eq (key : String) : (node'.get? key).isSome = (node.get? key).isSome := by
  rcases rel_cases (both.get?_rel respelled key) with ⟨h, h'⟩ | ⟨value, value', h, h', -⟩
  · rw [h, h']
  · rw [h, h']
    rfl

omit both in
/-- The elements of a list are no references. -/
theorem elements_rel {items items' : List Json}
    (listed : index.Both index' place (.array items) (.array items')) :
    List.Forall₂ (fun item item' => ∃ here : Pointer, here.last? ≠ some "$ref" ∧
      index.Both index' here item item') items items' := by
  refine List.forall₂_iff_get.2 ⟨listed.alike respelled, fun number hn hn' => ?_⟩
  have element := listed.element_rel respelled number
  rw [List.getElem?_eq_getElem hn, List.getElem?_eq_getElem hn'] at element
  cases element with
  | some element =>
    refine ⟨place.element number, fun last => ?_, element⟩
    rw [Pointer.element, Index.last?_child] at last
    have read := Json.elementNumber?_toString number
    rw [Option.some.inj last, show Json.elementNumber? "$ref" = none by decide] at read
    cases read

omit both in
theorem literalType_eq {value value' : Json} {here : Pointer} (other : here.last? ≠ some "$ref")
    (values : index.Both index' here value value') (place : Pointer) :
    literalType place value' = literalType place value := by
  have alike := values.alike respelled
  have text := values.string?_eq respelled other
  cases value <;> cases value' <;> first | exact alike.elim | skip
  case string.string => rw [Option.some.inj text]
  all_goals first
    | rfl
    | (cases (alike : _ = _); rfl)

omit both in
theorem map_literalType_eq {items items' : List Json} {here : Pointer}
    (listed : index.Both index' here (.array items) (.array items')) (place : Pointer) :
    items'.map (literalType place) = items.map (literalType place) := by
  have elements := elements_rel respelled listed
  clear listed
  induction elements with
  | nil => rfl
  | cons first _ ih =>
    obtain ⟨_, other, item⟩ := first
    rw [List.map_cons, List.map_cons, ih, literalType_eq respelled other item]

omit both in
theorem requiredKeys_eq {items items' : List Json}
    (listed : index.Both index' place (.array items) (.array items')) :
    requiredKeys items' = requiredKeys items := by
  unfold requiredKeys
  have elements := elements_rel respelled listed
  clear listed
  induction elements with
  | nil => rfl
  | cons first _ ih =>
    obtain ⟨here, other, item⟩ := first
    rw [List.filterMap_cons, List.filterMap_cons, ih, item.string?_eq respelled other]

/-! ## Kinds of value -/

theorem items_met :
    ItemsMet (Met index index' place node node') place (items node) (items node') := by
  unfold items
  rcases rel_cases (array?_rel respelled both "items") with
    ⟨single, single'⟩ | ⟨listed, listed', h, h', -⟩
  · rw [innerItems?_of_none single, innerItems?_of_none single']
    rcases rel_cases (inner?_rel respelled both (.items single)) with
      ⟨h, h'⟩ | ⟨inner, inner', h, h', met⟩
    · rw [h, h']
      exact .absent
    · rw [h, h']
      exact .single met
  · obtain ⟨inners, hi, -⟩ := innerItems?_of_array h
    obtain ⟨inners', hi', -⟩ := innerItems?_of_array h'
    have met := innerItems?_rel respelled both .item
    rw [hi, hi'] at met ⊢
    cases met with
    | some met => exact .tuple met

theorem additional_met :
    AdditionalMet (Met index index' place node node') place (additional node)
      (additional node') := by
  unfold additional
  rcases rel_cases (inner?_rel respelled both .additional) with
    ⟨h, h'⟩ | ⟨⟨value, _⟩, ⟨value', _⟩, h, h', met⟩
  · rw [h, h']
    exact .absent
  · rw [h, h']
    have alike := met.2.alike respelled
    cases value with
    | bool value =>
      cases value' with
      | bool value' =>
        cases alike
        cases value with
        | true => exact .any
        | false => exact .forbidden
      | _ => cases alike
    | object fields =>
      cases value' with
      | object fields' =>
        have keys : fields.map (·.1) = fields'.map (·.1) := alike
        cases fields with
        | nil =>
          cases fields' with
          | nil => exact .any
          | cons _ _ => cases keys
        | cons _ _ =>
          cases fields' with
          | nil => cases keys
          | cons _ _ => exact .schema met
      | _ => cases alike
    | _ =>
      cases value' with
      | bool value' => cases alike
      | object fields' => cases alike
      | _ => exact .schema met

theorem objectShape_met :
    ObjectMet (Met index index' place node node') place (objectShape node) (objectShape node') where
  properties := by
    unfold objectShape
    rcases rel_cases (innerFields?_rel respelled both .property) with
      ⟨h, h'⟩ | ⟨fields, fields', h, h', met⟩
    · rw [h, h']
      exact .nil
    · rw [h, h']
      exact met
  required := by
    unfold objectShape
    rcases rel_cases (array?_rel respelled both "required") with
      ⟨h, h'⟩ | ⟨items, items', h, h', listed⟩
    · rw [h, h']
    · rw [h, h']
      exact requiredKeys_eq respelled listed
  additional := additional_met respelled both

theorem coreOf?_rel (kind : String) :
    OkRel (CoreMet (Met index index' place node node') place) (coreOf? node kind)
      (coreOf? node' kind) := by
  unfold coreOf?
  split
  · exact .ok (.object (objectShape_met respelled both))
  · exact .ok (.array (items_met respelled both))
  case h_8 => exact .error _ _
  all_goals exact .ok (.scalar _)

theorem coresOf?_rel {kinds kinds' : List Json}
    (elements : List.Forall₂ (fun item item' => ∃ here : Pointer, here.last? ≠ some "$ref" ∧
      index.Both index' here item item') kinds kinds') :
    OkRel (List.Forall₂ (CoreMet (Met index index' place node node') place)) (coresOf? node kinds)
      (coresOf? node' kinds') := by
  -- a kind is never under `$ref`, so both name the same kinds, and both stop at the first unknown
  induction elements with
  | nil => exact .ok .nil
  | @cons kind kind' kinds kinds' first _ ih =>
    obtain ⟨here, other, item⟩ := first
    have text := item.string?_eq respelled other
    cases kind with
    | string kind =>
      cases kind' with
      | string kind' =>
        cases text
        simp only [coresOf?]
        rcases okRel_cases (coreOf?_rel respelled both kind) with
          ⟨error, error', h, h'⟩ | ⟨core, core', h, h', met⟩
        · rw [h, h']
          exact .error _ _
        · rw [h, h']
          rcases okRel_cases ih with ⟨error, error', h, h'⟩ | ⟨cores, cores', h, h', later⟩
          · rw [h, h']
            exact .error _ _
          · rw [h, h']
            exact .ok (.cons met later)
      | _ => cases text
    | _ =>
      cases kind' with
      | string kind' => cases text
      | _ => exact .error _ _

theorem base?_rel :
    OkRel (Option.Rel (BaseMet (Met index index' place node node') place)) (base? node)
      (base? node') := by
  unfold base?
  rcases rel_cases (both.get?_rel respelled "type") with ⟨h, h'⟩ | ⟨kind, kind', h, h', type⟩
  · rw [h, h']
    dsimp only
    rw [isSome_get?_eq respelled both "properties",
      isSome_get?_eq respelled both "additionalProperties", isSome_get?_eq respelled both "items"]
    split
    · exact .ok (.some (.one (.object (objectShape_met respelled both))))
    · split
      · exact .ok (.some (.one (.array (items_met respelled both))))
      · exact .ok .none
  · rw [h, h']
    have alike := type.alike respelled
    have text := type.string?_eq respelled (by simp [Index.last?_child])
    cases kind with
    | string kind =>
      cases kind' with
      | string kind' =>
        cases text
        dsimp only
        rcases okRel_cases (coreOf?_rel respelled both kind) with
          ⟨error, error', h, h'⟩ | ⟨core, core', h, h', met⟩
        · rw [h, h']
          exact .error _ _
        · rw [h, h']
          exact .ok (.some (.one met))
      | _ => cases text
    | array kinds =>
      cases kind' with
      | array kinds' =>
        dsimp only
        rcases okRel_cases (coresOf?_rel respelled both (elements_rel respelled type)) with
          ⟨error, error', h, h'⟩ | ⟨cores, cores', h, h', met⟩
        · rw [h, h']
          exact .error _ _
        · rw [h, h']
          cases met with
          | nil => exact .ok .none
          | cons first rest =>
            cases rest with
            | nil => exact .ok (.some (.one first))
            | cons second rest => exact .ok (.some (.several (.cons first (.cons second rest))))
      | _ => cases alike
    | _ =>
      cases kind' with
      | string kind' => cases text
      | array kinds' => cases alike
      | _ => exact .error _ _

/-! ## Shapes -/

theorem composition_met :
    CompositionMet (Met index index' place node node') place (composition node)
      (composition node') where
  allOf := innerItems?_rel respelled both fun number => .listed "allOf" number (by simp)
  oneOf := innerItems?_rel respelled both fun number => .listed "oneOf" number (by simp)
  anyOf := innerItems?_rel respelled both fun number => .listed "anyOf" number (by simp)
  not := isSome_get?_eq respelled both "not"

omit respelled both in
theorem isSome_eq_of_rel {α β : Type} {R : α → β → Prop} {a : Option α} {b : Option β}
    (h : Option.Rel R a b) : b.isSome = a.isSome := by
  cases h <;> rfl

omit respelled both in
theorem CompositionMet.isEmpty_eq {met : InnerMet node node'}
    {composition : Composition (Inner node)} {composition' : Composition (Inner node')}
    (h : CompositionMet met place composition composition') :
    composition'.isEmpty = composition.isEmpty := by
  simp only [Composition.isEmpty, ← Option.not_isSome, isSome_eq_of_rel h.allOf,
    isSome_eq_of_rel h.oneOf, isSome_eq_of_rel h.anyOf, h.not]

theorem objectSchemaShape_met :
    ShapeMet (Met index index' place node node') place (objectSchemaShape node)
      (objectSchemaShape node') := by
  have composed := composition_met respelled both
  unfold objectSchemaShape
  rw [composed.isEmpty_eq]
  rcases rel_cases (array?_rel respelled both "enum") with
    ⟨h, h'⟩ | ⟨values, values', h, h', listed⟩
  · rw [h, h']
    rcases rel_cases (both.get?_rel respelled "const") with ⟨h, h'⟩ | ⟨value, value', h, h', same⟩
    · rw [h, h']
      dsimp only
      rcases okRel_cases (base?_rel respelled both) with
        ⟨error, error', h, h'⟩ | ⟨base, base', h, h', met⟩
      · rw [h, h']
        exact .unsupported _ _
      · rw [h, h']
        dsimp only
        split
        · cases met with
          | none =>
            unfold bareShape
            simp only [isSome_get?_eq respelled both]
            split
            · exact .any
            · exact .unsupported _ _
          | some met => exact .structural met
        · exact .composite composed met
    · rw [h, h']
      refine .constant ?_
      exact literalType_eq respelled (by simp [Index.last?_child]) same place
  · rw [h, h']
    dsimp only
    split
    · exact .enumeration (map_literalType_eq respelled listed place)
    · exact .enumerationWithComposition

/-- Schemas that are respellings of each other have the same shape. -/
theorem shape_met :
    ShapeMet (Met index index' place node node') place (shape node) (shape node') := by
  have alike := both.alike respelled
  cases node with
  | bool value =>
    cases node' with
    | bool value' =>
      cases alike
      cases value with
      | true => exact .any
      | false => exact .nothing
    | _ => cases alike
  | object fields =>
    cases node' with
    | object fields' =>
      unfold shape
      dsimp only
      rcases rel_cases (both.reference?_rel respelled) with
        ⟨h, h'⟩ | ⟨reference, reference', h, h', -⟩
      · rw [h, h']
        exact objectSchemaShape_met respelled both
      · rw [h, h']
        exact .reference h h'
    | _ => cases alike
  | _ =>
    cases node' with
    | bool value' => cases alike
    | object fields' => cases alike
    | _ => exact .unsupported _ _

end

end ApiTypes.Schema
