import ApiTypes.Proofs.Place

/-!
# Spellings of references

Many texts lead to one place: segments may be escaped in different ways, and a root alias gives
places other names. Two documents are respellings of each other when they have the same nodes at
the same places, but for references that are written differently and lead to the same places
(`Index.Respelled`).

* `Respelled.leadsTo?_eq`: every text leads to one place in both;
* `Both.get?_rel`, `Both.element_rel`, `Both.fields_rel`: what the nodes at one place hold is at
  one place again;
* `Both.text?_eq`: it is the same text, unless it is a reference;
* `Both.resolve`: a reference leads to one place.
-/

namespace ApiTypes

namespace Index

/-- The place that a reference with the text leads to. -/
def leadsTo? (index : Index) (reference : String) : Option Pointer :=
  ((Pointer.ofReference? reference).bind index.locate?).map (·.pointer)

/-- What two nodes at one place have in common when they are respellings. What is inside of arrays
and objects has places of its own. -/
def Alike (index : Index) (place : Pointer) : Json → Json → Prop
  | .null, .null => True
  | .bool value, .bool value' => value = value'
  | .number value, .number value' => value = value'
  | .string text, .string text' =>
    text = text' ∨ place.last? = some "$ref" ∧ (index.leadsTo? text).isSome ∧
      index.leadsTo? text' = index.leadsTo? text
  | .array items, .array items' => items.length = items'.length
  | .object fields, .object fields' => fields.map (·.1) = fields'.map (·.1)
  | _, _ => False

instance (index : Index) (place : Pointer) (node node' : Json) :
    Decidable (index.Alike place node node') := by
  unfold Alike
  split <;> infer_instance

/-- The places are those of the other document, in the same order, and the nodes there are alike. -/
structure Respelled (index index' : Index) : Prop where
  rootAlias : index'.rootAlias = index.rootAlias
  locations : List.Forall₂
    (fun location location' => location'.1 = location.1 ∧
      index.Alike location.1 location.2 location'.2) index.locations index'.locations

/-- The nodes are those at one place of two documents. -/
structure Both (index index' : Index) (place : Pointer) (node node' : Json) : Prop where
  left : index.get? place = some node
  right : index'.get? place = some node'

section
variable {index index' : Index} {place : Pointer} {node node' : Json}

/-! ## Places and references -/

theorem target?_pointer (index : Index) (place : Pointer) :
    (index.target? place).map (·.pointer) = (index.get? place).map fun _ => place := by
  cases h : index.get? place with
  | none => rw [target?_of_none h]; rfl
  | some node => rw [target?_of_some h]; rfl

/-- Which place a pointer means depends on the root alias and on which places there are. -/
theorem locate?_pointer (index : Index) (pointer : Pointer) :
    (index.locate? pointer).map (·.pointer) =
      ((index.get? pointer).map fun _ => pointer).or
        (index.rootAlias.bind fun beginning =>
          (pathAfter? beginning.segments pointer.segments).bind fun rest =>
            (index.get? ⟨rest⟩).map fun _ => ⟨rest⟩) := by
  unfold locate?
  rw [← target?_pointer]
  cases index.target? pointer with
  | some target => rfl
  | none =>
    cases index.rootAlias with
    | none => rfl
    | some beginning =>
      simp only [Option.map_none, Option.none_or, Option.bind_some, Option.map_bind,
        Function.comp_def, target?_pointer]

theorem leadsTo?_of_resolve {reference : String} {target : index.Target}
    (h : index.resolve reference place = .ok target) :
    index.leadsTo? reference = some target.pointer := by
  unfold leadsTo?
  rw [locate?_of_resolve h]
  rfl

theorem resolve_of_leadsTo? {reference : String} {pointer : Pointer}
    (h : index.leadsTo? reference = some pointer) (place : Pointer) :
    ∃ target, index.resolve reference place = .ok target ∧ target.pointer = pointer := by
  obtain ⟨target, located, same⟩ := Option.map_eq_some_iff.1 h
  exact ⟨target, by rw [resolve, located], same⟩

section
variable (respelled : index.Respelled index')
include respelled

theorem Respelled.both (place : Pointer) :
    Option.Rel (Both index index' place) (index.get? place) (index'.get? place) := by
  cases h : index.get? place with
  | none =>
    cases h' : index'.get? place with
    | none => exact .none
    | some node' =>
      obtain ⟨location, hm, same, -⟩ :=
        exists_left_of_forall₂ respelled.locations (mem_locations h')
      have found : index.get? location.1 = some location.2 := get?_of_mem_locations hm
      rw [← same, h] at found
      cases found
  | some node =>
    obtain ⟨location', hm, same, -⟩ :=
      exists_right_of_forall₂ respelled.locations (mem_locations h)
    have found : index'.get? location'.1 = some location'.2 := get?_of_mem_locations hm
    rw [same] at found
    rw [found]
    exact .some ⟨h, found⟩

theorem Respelled.isPlace_eq (place other : Pointer) :
    ((index'.get? place).map fun _ => other) = (index.get? place).map fun _ => other := by
  rcases rel_cases (respelled.both place) with ⟨h, h'⟩ | ⟨node, node', h, h', -⟩
  · rw [h, h']
  · rw [h, h']
    rfl

/-- Every text leads to one place in both documents. -/
theorem Respelled.leadsTo?_eq (reference : String) :
    index'.leadsTo? reference = index.leadsTo? reference := by
  unfold leadsTo?
  cases Pointer.ofReference? reference with
  | none => rfl
  | some pointer =>
    simp only [Option.bind_some, locate?_pointer, respelled.rootAlias, respelled.isPlace_eq]

theorem Both.alike (both : Both index index' place node node') : index.Alike place node node' := by
  obtain ⟨location', hm, same, alike⟩ :=
    exists_right_of_forall₂ respelled.locations (mem_locations both.left)
  have found : index'.get? location'.1 = some location'.2 := get?_of_mem_locations hm
  rw [same, both.right] at found
  rwa [← Option.some.inj found] at alike

/-! ## What nodes hold -/

theorem Both.get?_rel (both : Both index index' place node node') (key : String) :
    Option.Rel (Both index index' (place.child key)) (node.get? key) (node'.get? key) := by
  have alike := both.alike respelled
  cases node with
  | object fields =>
    cases node' with
    | object fields' =>
      have under := respelled.both (place.child key)
      rw [get?_child, get?_child, both.left, both.right] at under
      exact under
    | _ => cases alike
  | _ =>
    cases node' with
    | object fields' => cases alike
    | _ => exact .none

/-- A text that is no reference is the same in both documents. -/
theorem Both.string?_eq (both : Both index index' place node node')
    (other : place.last? ≠ some "$ref") : node'.string? = node.string? := by
  have alike := both.alike respelled
  cases node with
  | string text =>
    cases node' with
    | string text' =>
      rcases alike with rfl | ⟨key, -⟩
      · rfl
      · exact absurd key other
    | _ => cases alike
  | _ =>
    cases node' with
    | string text' => cases alike
    | _ => rfl

theorem Both.array?_rel (both : Both index index' place node node') :
    Option.Rel (fun items items' => Both index index' place (.array items) (.array items'))
      node.array? node'.array? := by
  have alike := both.alike respelled
  cases node with
  | array items =>
    cases node' with
    | array items' => exact .some both
    | _ => cases alike
  | _ =>
    cases node' with
    | array items' => cases alike
    | _ => exact .none

theorem Both.object?_rel (both : Both index index' place node node') :
    Option.Rel (fun fields fields' => Both index index' place (.object fields) (.object fields'))
      node.object? node'.object? := by
  have alike := both.alike respelled
  cases node with
  | object fields =>
    cases node' with
    | object fields' => exact .some both
    | _ => cases alike
  | _ =>
    cases node' with
    | object fields' => cases alike
    | _ => exact .none

theorem Both.bool?_eq (both : Both index index' place node node') : node'.bool? = node.bool? := by
  have alike := both.alike respelled
  cases node with
  | bool value =>
    cases node' with
    | bool value' =>
      cases alike
      rfl
    | _ => cases alike
  | _ =>
    cases node' with
    | bool value' => cases alike
    | _ => rfl

omit respelled in
theorem last?_child (place : Pointer) (key : String) : (place.child key).last? = some key := by
  simp [Pointer.last?, Pointer.child]

theorem Both.text?_eq (both : Both index index' place node node') {key : String}
    (other : key ≠ "$ref") : node'.text? key = node.text? key := by
  unfold Json.text?
  rcases rel_cases (both.get?_rel respelled key) with ⟨h, h'⟩ | ⟨value, value', h, h', inner⟩
  · rw [h, h']
  · rw [h, h', Option.bind_some, Option.bind_some]
    exact inner.string?_eq respelled (by simpa [last?_child] using other)

theorem Both.flag_eq (both : Both index index' place node node') (key : String) :
    node'.flag key = node.flag key := by
  unfold Json.flag
  rcases rel_cases (both.get?_rel respelled key) with ⟨h, h'⟩ | ⟨value, value', h, h', inner⟩
  · rw [h, h']
  · rw [h, h', Option.bind_some, Option.bind_some, inner.bool?_eq respelled]

/-- References at one place are the same, or lead to the same place. -/
theorem Both.reference?_rel (both : Both index index' place node node') :
    Option.Rel (fun reference reference' => reference' = reference ∨
        (index.leadsTo? reference).isSome ∧ index.leadsTo? reference' = index.leadsTo? reference)
      (Schema.reference? node) (Schema.reference? node') := by
  unfold Schema.reference? Json.text?
  rcases rel_cases (both.get?_rel respelled "$ref") with ⟨h, h'⟩ | ⟨value, value', h, h', inner⟩
  · rw [h, h']
    exact .none
  · rw [h, h', Option.bind_some, Option.bind_some]
    have alike := inner.alike respelled
    cases value with
    | string text =>
      cases value' with
      | string text' =>
        refine .some ?_
        rcases alike with rfl | ⟨-, leads⟩
        · exact .inl rfl
        · exact .inr leads
      | _ => cases alike
    | _ =>
      cases value' with
      | string text' => cases alike
      | _ => exact .none

/-- What a reference leads to is met at one place again. -/
theorem Both.resolve {reference reference' : String} (both : Both index index' place node node')
    (h : Schema.reference? node = some reference) (h' : Schema.reference? node' = some reference')
    {target : index.Target} (ht : index.resolve reference place = .ok target) :
    ∃ target', index'.resolve reference' place = .ok target' ∧ target'.pointer = target.pointer ∧
      Both index index' target.pointer target.node target'.node := by
  have leads := leadsTo?_of_resolve ht
  have same := both.reference?_rel respelled
  rw [h, h'] at same
  have leads' : index'.leadsTo? reference' = some target.pointer := by
    rw [respelled.leadsTo?_eq]
    cases same with
    | some same =>
      rcases same with rfl | ⟨-, same⟩
      · exact leads
      · exact same.trans leads
  obtain ⟨target', ht', at_place⟩ := resolve_of_leadsTo? leads' place
  exact ⟨target', ht', at_place, target.found, at_place ▸ target'.found⟩

theorem Both.element_rel {items items' : List Json}
    (both : Both index index' place (.array items) (.array items')) (number : Nat) :
    Option.Rel (Both index index' (place.element number)) items[number]? items'[number]? := by
  have under := respelled.both (place.element number)
  unfold Pointer.element at under
  rw [get?_child, get?_child, both.left, both.right] at under
  simp only [Option.bind_some, Json.step?, Json.elementNumber?_toString] at under
  exact under

theorem Both.fields_rel {fields fields' : List (String × Json)}
    (both : Both index index' place (.object fields) (.object fields')) :
    List.Forall₂ (fun field field' => field'.1 = field.1 ∧
      Both index index' (place.child field.1) field.2 field'.2) fields fields' := by
  have keys : fields.map (·.1) = fields'.map (·.1) := both.alike respelled
  rw [← List.forall₂_eq_eq_eq, List.forall₂_map_left_iff, List.forall₂_map_right_iff] at keys
  have distinct := (distinct_get? both.left).1
  have distinct' := (distinct_get? both.right).1
  refine forall₂_imp_of_mem keys fun field hm field' hm' same => ⟨same.symm, ?_, ?_⟩
  · exact get?_key both.left (lookup_of_mem distinct hm)
  · rw [same]
    exact get?_key both.right (lookup_of_mem distinct' hm')

end

end

end Index

end ApiTypes
