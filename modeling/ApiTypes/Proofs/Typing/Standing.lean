import ApiTypes.Proofs.Place

/-!
# Where the parts of a shape stand

A shape is over the schemas inside a node, and typing gives each of them a place. The predicates
here say that these are their places in the document; `shape_stands` shows it for the shape of any
node of the document, so that no place made up on the way is ever wrong. It goes by what a shape
says of the keywords of the node (`shape_read`).
-/

namespace ApiTypes.Schema

section
variable {node : Json} (index : Index) (place : Pointer)

def ListStands (inners : List (Inner node)) : Prop :=
  ∀ (n : Nat) (inner : Inner node), inners[n]? = some inner →
    index.get? (place.element n) = some inner.node

structure FieldsStand (fields : List (String × Inner node)) : Prop where
  stands : ∀ name inner, (name, inner) ∈ fields → index.get? (place.child name) = some inner.node
  distinct : (fields.map (·.1)).Nodup

def ItemsStand : Items (Inner node) → Prop
  | .absent => True
  | .single inner => index.get? (place.child "items") = some inner.node
  | .tuple inners => ListStands index (place.child "items") inners

def AdditionalStands : Additional (Inner node) → Prop
  | .schema inner => index.get? (place.child "additionalProperties") = some inner.node
  | .absent | .forbidden | .any => True

def CoreStands : Core (Inner node) → Prop
  | .scalar _ => True
  | .array items => ItemsStand index place items
  | .object shape =>
    FieldsStand index (place.child "properties") (shape.properties.getD []) ∧
      AdditionalStands index place shape.additional

def BaseStands : Base (Inner node) → Prop
  | .one core => CoreStands index place core
  | .several cores => ∀ core ∈ cores, CoreStands index place core

structure CompositionStands (composition : Composition (Inner node)) : Prop where
  allOf : ∀ inners, composition.allOf = some inners →
    ListStands index (place.child "allOf") inners
  oneOf : ∀ inners, composition.oneOf = some inners →
    ListStands index (place.child "oneOf") inners
  anyOf : ∀ inners, composition.anyOf = some inners →
    ListStands index (place.child "anyOf") inners

/-- References and values are those that the node writes itself. -/
def ShapeStands : Shape (Inner node) → Prop
  | .reference reference => reference? node = some reference
  | .enumeration values => (node.get? "enum").bind Json.array? = some values
  | .constant value => node.get? "const" = some value
  | .composite composition base =>
    CompositionStands index place composition ∧ ∀ b, base = some b → BaseStands index place b
  | .structural base => BaseStands index place base
  | .any | .nothing | .enumerationWithComposition | .unsupported _ => True

end

variable {index : Index} {place : Pointer} {node : Json}

theorem innerItems_stand {key : String} {inners : List (Inner node)}
    (h : index.get? place = some node) (hi : node.innerItems? key = some inners) :
    ListStands index (place.child key) inners :=
  fun _ _ hn => Index.get?_innerItems h hi hn

theorem items_stand (h : index.get? place = some node) : ItemsStand index place (items node) := by
  unfold items
  split
  · rename_i nodes hi
    exact innerItems_stand h hi
  · split
    · rename_i inner hi
      exact Index.get?_inner h hi
    · trivial

theorem additional_stands (h : index.get? place = some node) :
    AdditionalStands index place (additional node) := by
  unfold additional
  split
  · trivial
  · rename_i inner hi
    split
    · trivial
    · trivial
    · trivial
    · exact Index.get?_inner h hi

theorem FieldsStand.tail {field : String × Inner node} {rest : List (String × Inner node)}
    (h : FieldsStand index place (field :: rest)) : FieldsStand index place rest :=
  ⟨fun name inner hm => h.stands name inner (List.mem_cons_of_mem _ hm),
    (List.nodup_cons.1 h.distinct).2⟩

theorem objectShape_stands (h : index.get? place = some node) :
    CoreStands index place (.object (objectShape node)) := by
  refine ⟨?_, additional_stands h⟩
  simp only [objectShape]
  cases hp : node.innerFields? "properties" with
  | none => exact ⟨by simp, by simp⟩
  | some fields =>
    exact ⟨fun _ _ hm => Index.get?_innerFields h hp hm, Index.innerFields_distinct h hp⟩

theorem core_stands {kind : String} {core : Core (Inner node)} (h : index.get? place = some node)
    (hc : coreOf? node kind = .ok core) : CoreStands index place core := by
  unfold coreOf? at hc
  split at hc <;> cases hc
  · exact objectShape_stands h
  · exact items_stand h
  all_goals trivial

theorem cores_stand {kinds : List Json} {cores : List (Core (Inner node))}
    (h : index.get? place = some node) (hc : coresOf? node kinds = .ok cores) :
    ∀ core ∈ cores, CoreStands index place core := by
  induction kinds generalizing cores with
  | nil =>
    cases hc
    simp
  | cons kind rest ih =>
    unfold coresOf? at hc
    split at hc
    · cases hc
      simp
    · rename_i name rest' he
      cases he
      split at hc
      · cases hc
      · rename_i core hk
        split at hc
        · cases hc
        · rename_i later hl
          cases hc
          intro c hm
          rcases List.mem_cons.1 hm with rfl | hm
          · exact core_stands h hk
          · exact ih hl c hm
    · cases hc

theorem base_stands {base : Base (Inner node)} (h : index.get? place = some node)
    (hb : base? node = .ok (some base)) : BaseStands index place base := by
  unfold base? at hb
  split at hb
  · rename_i kind _
    cases hk : coreOf? node kind with
    | error e => simp [hk, Except.map] at hb
    | ok core =>
      simp only [hk, Except.map, Except.ok.injEq, Option.some.injEq] at hb
      exact hb ▸ core_stands h hk
  · rename_i kinds _
    cases hk : coresOf? node kinds with
    | error e => simp [hk, Except.map] at hb
    | ok cores =>
      have stand := cores_stand h hk
      simp only [hk, Except.map, Except.ok.injEq] at hb
      split at hb
      · cases hb
      · cases hb
        exact stand _ List.mem_cons_self
      · cases hb
        exact stand
  · cases hb
  · split at hb
    · cases hb
      exact objectShape_stands h
    · split at hb
      · cases hb
        exact items_stand h
      · cases hb

theorem composition_stands (h : index.get? place = some node) :
    CompositionStands index place (composition node) :=
  ⟨fun _ hi => innerItems_stand h hi, fun _ hi => innerItems_stand h hi,
    fun _ hi => innerItems_stand h hi⟩

/-- What a shape says of the schema that has it. -/
def ShapeRead : Shape (Inner node) → Prop
  | .reference reference => reference? node = some reference
  | .enumeration values => (node.get? "enum").bind Json.array? = some values
  | .constant value => node.get? "const" = some value
  | .composite composition base =>
    composition = Schema.composition node ∧ composition.isEmpty = false ∧ base? node = .ok base
  | .structural base => base? node = .ok (some base)
  | .any | .nothing | .enumerationWithComposition | .unsupported _ => True

theorem objectSchemaShape_read (node : Json) : ShapeRead (objectSchemaShape node) := by
  unfold objectSchemaShape
  split
  · rename_i values he
    split
    · exact he
    · trivial
  · split
    · rename_i value hc
      exact hc
    · split
      · trivial
      · rename_i base hb
        split
        · split
          · exact hb
          · unfold bareShape
            dsimp only
            split <;> trivial
        · rename_i composed
          exact ⟨rfl, Bool.eq_false_iff.2 composed, hb⟩

theorem shape_read (node : Json) : ShapeRead (shape node) := by
  unfold shape
  split
  · trivial
  · trivial
  · split
    · rename_i reference hr
      exact hr
    · exact objectSchemaShape_read _
  · trivial

/-- Every part of a node's shape stands where typing places it. -/
theorem shape_stands (h : index.get? place = some node) :
    ShapeStands index place (shape node) := by
  have read := shape_read node
  generalize shape node = shape at read ⊢
  cases shape with
  | any | nothing | enumerationWithComposition | unsupported => trivial
  | reference | enumeration | constant => exact read
  | composite composition base =>
    obtain ⟨rfl, -, hb⟩ := read
    refine ⟨composition_stands h, ?_⟩
    rintro b rfl
    exact base_stands h hb
  | structural base => exact base_stands h read

end ApiTypes.Schema
