import ApiTypes.Proofs.Place
import ApiTypes.Schema.Shape
import Mathlib.Algebra.BigOperators.Group.List.Basic
import Mathlib.Tactic.Ring

/-!
# The load of a schema

How large a type may become is told from the schema by counting its places and references: a type
that repeats nothing has no more parts than the schema has places, and a reference that is not
expanded stands for a type within a limit.

* `shapeLoad_le`: what the parts of a schema's shape weigh is within the schema's own load;
* `weight_eq`: the weight of a value, by its places;
* `Index.repeats_le_root`: schemas with repeated kinds nest no deeper anywhere than from the root.
-/

namespace ApiTypes

open Schema

namespace Json

/-! ## Weights -/

/-- Whether a schema is a reference. -/
def isReference (node : Json) : Bool :=
  (reference? node).isSome

/-- Whether a schema says what it says by itself. -/
def isPlain (node : Json) : Bool :=
  node.isObject && !node.isReference

mutual

/-- Two for every place in a value, and `limit` more for every reference. -/
def weight (limit : Nat) : Json → Nat
  | .array items => 2 + itemsWeight limit items
  | .object fields =>
    2 + fieldsWeight limit fields + if (Json.object fields).isReference then limit else 0
  | .null | .bool _ | .number _ | .string _ => 2

def itemsWeight (limit : Nat) : List Json → Nat
  | [] => 0
  | item :: rest => item.weight limit + itemsWeight limit rest

def fieldsWeight (limit : Nat) : List (String × Json) → Nat
  | [] => 0
  | (_, value) :: rest => value.weight limit + fieldsWeight limit rest

end

/-- What stands under a key weighs. -/
def weightUnder (limit : Nat) (node : Json) (key : String) : Nat :=
  match node.get? key with
  | some value => value.weight limit
  | none => 0

/-- The weight, less what telling alternatives apart may add to a reference. -/
def load (limit : Nat) (node : Json) : Nat :=
  node.weight limit - if node.isReference then 3 else 0

variable {limit : Nat}

theorem two_le_weight (limit : Nat) (node : Json) : 2 ≤ node.weight limit := by
  cases node <;> simp only [weight] <;> omega

theorem load_le_weight (node : Json) : node.load limit ≤ node.weight limit :=
  Nat.sub_le _ _

theorem itemsWeight_eq (items : List Json) :
    itemsWeight limit items = (items.map (weight limit)).sum := by
  induction items with
  | nil => rfl
  | cons item rest ih => rw [itemsWeight, ih, List.map_cons, List.sum_cons]

theorem length_le_itemsWeight (limit : Nat) (items : List Json) :
    2 * items.length ≤ itemsWeight limit items := by
  induction items with
  | nil => exact Nat.zero_le _
  | cons item rest ih =>
    have := two_le_weight limit item
    rw [itemsWeight, List.length_cons]
    omega

theorem fieldsWeight_eq (fields : List (String × Json)) :
    fieldsWeight limit fields = (fields.map fun field => field.2.weight limit).sum := by
  induction fields with
  | nil => rfl
  | cons field rest ih => rw [fieldsWeight, ih, List.map_cons, List.sum_cons]

theorem sum_weightUnder_eq_zero {node : Json} (empty : ∀ key, node.get? key = none)
    (keys : List String) : (keys.map (weightUnder limit node)).sum = 0 := by
  refine List.sum_eq_zero fun weight hm => ?_
  obtain ⟨key, -, rfl⟩ := List.mem_map.1 hm
  rw [weightUnder, empty]

/-- Different keys lead to different fields. -/
theorem sum_lookups_le {keys : List String} (distinct : keys.Nodup) (fields : List (String × Json)) :
    (keys.map (weightUnder limit (.object fields))).sum ≤ fieldsWeight limit fields := by
  induction fields generalizing keys with
  | nil => exact Nat.le_of_eq (sum_weightUnder_eq_zero (fun _ => rfl) keys)
  | cons field rest ih =>
    obtain ⟨name, value⟩ := field
    have elsewhere {key : String} (other : key ≠ name) :
        weightUnder limit (.object ((name, value) :: rest)) key =
          weightUnder limit (.object rest) key := by
      simp [weightUnder, get?, List.lookup_cons, beq_false_of_ne other]
    rw [fieldsWeight]
    by_cases here : name ∈ keys
    · have first : weightUnder limit (.object ((name, value) :: rest)) name = value.weight limit := by
        simp [weightUnder, get?]
      rw [((List.perm_cons_erase here).map _).sum_eq, List.map_cons, List.sum_cons, first,
        List.map_congr_left fun key hm => elsewhere (distinct.mem_erase_iff.1 hm).1]
      exact Nat.add_le_add_left (ih (distinct.erase name)) _
    · rw [List.map_congr_left fun key hm => elsewhere fun same => here (same ▸ hm)]
      exact Nat.le_trans (ih distinct) (Nat.le_add_left _ _)

/-- What stands under different keys weighs no more than the whole. -/
theorem sum_weightUnder_le (limit : Nat) {keys : List String} (distinct : keys.Nodup) (node : Json) :
    2 + (keys.map (weightUnder limit node)).sum +
      (if node.isReference then limit else 0) ≤ node.weight limit := by
  cases node with
  | object fields =>
    have : (keys.map (weightUnder limit (.object fields))).sum ≤ fieldsWeight limit fields :=
      sum_lookups_le distinct fields
    rw [weight]
    omega
  | _ =>
    rw [sum_weightUnder_eq_zero fun _ => rfl]
    simp [weight, isReference, reference?, text?, get?]

/-! ## The load of shapes -/

section
variable (limit) {node : Json}

def innersLoad (inners : List (Inner node)) : Nat :=
  (inners.map fun inner => inner.node.weight limit).sum

def itemsLoad : Items (Inner node) → Nat
  | .absent => 0
  | .single inner => inner.node.weight limit
  | .tuple inners => innersLoad limit inners

def additionalLoad : Additional (Inner node) → Nat
  | .absent | .forbidden => 0
  | .any => 1
  | .schema inner => inner.node.weight limit

def objectLoad (shape : ObjectShape (Inner node)) : Nat :=
  innersLoad limit ((shape.properties.getD []).map (·.2)) + additionalLoad limit shape.additional

def coreLoad : Core (Inner node) → Nat
  | .scalar _ => 1
  | .array items => 2 + itemsLoad limit items
  | .object shape => 2 + objectLoad limit shape

/-- However often a list of kinds repeats one that has parts, these count once. -/
def baseLoad : Base (Inner node) → Nat
  | .one core => coreLoad limit core
  | .several cores =>
    1 + 2 * cores.length + itemsLoad limit (items node) + objectLoad limit (objectShape node)

def listLoad : Option (List (Inner node)) → Nat
  | none => 0
  | some inners => 1 + innersLoad limit inners

def notLoad : Option Json → Nat
  | none => 0
  | some _ => 1

def compositionLoad (composition : Composition (Inner node)) : Nat :=
  listLoad limit composition.allOf + listLoad limit composition.oneOf +
    listLoad limit composition.anyOf + notLoad composition.not

def shapeLoad : Shape (Inner node) → Nat
  | .any | .nothing | .enumerationWithComposition | .constant _ | .unsupported _ => 1
  | .reference _ => limit
  | .enumeration values => 1 + values.length
  | .composite composition base =>
    1 + compositionLoad limit composition + base.elim 0 (baseLoad limit)
  | .structural base => baseLoad limit base

/-- What the schemas of a list make, without what telling them apart adds. -/
def innersLoads (inners : List (Inner node)) : Nat :=
  (inners.map fun inner => inner.node.load limit).sum

/-- What telling apart the schemas of a list adds. -/
def tagsLoad (inners : List (Inner node)) : Nat :=
  (inners.map fun inner => if inner.node.isReference then 3 else 0).sum

/-- What admitting null besides adds. -/
def nullLoad (node : Json) : Nat :=
  if isNullable node then 2 else 0

end

section
variable (limit) {node : Json}

theorem weightUnder_of_some {key : String} {value : Json} (h : node.get? key = some value) :
    weightUnder limit node key = value.weight limit := by
  rw [weightUnder, h]

theorem two_le_weightUnder {key : String} (h : (node.get? key).isSome) :
    2 ≤ weightUnder limit node key := by
  obtain ⟨value, hv⟩ := Option.isSome_iff_exists.1 h
  rw [weightUnder_of_some limit hv]
  exact two_le_weight limit value

theorem weightUnder_inner {key : String} {inner : Inner node} (h : node.inner? key = some inner) :
    weightUnder limit node key = inner.node.weight limit :=
  weightUnder_of_some limit (get?_of_inner h)

theorem weightUnder_innerItems {key : String} {inners : List (Inner node)}
    (h : node.innerItems? key = some inners) :
    weightUnder limit node key = 2 + innersLoad limit inners := by
  rw [weightUnder_of_some limit (get?_of_innerItems h), weight, itemsWeight_eq, List.map_map]
  rfl

theorem weightUnder_innerFields {key : String} {inners : List (String × Inner node)}
    (h : node.innerFields? key = some inners) :
    2 + innersLoad limit (inners.map (·.2)) ≤ weightUnder limit node key := by
  rw [weightUnder_of_some limit (get?_of_innerFields h), weight, fieldsWeight_eq, List.map_map, innersLoad,
    List.map_map]
  exact Nat.le_add_right _ _

theorem two_le_reference (h : node.isReference = true) : 2 ≤ weightUnder limit node "$ref" := by
  refine two_le_weightUnder limit ?_
  cases hv : node.get? "$ref" with
  | none => simp [isReference, reference?, text?, hv] at h
  | some value => rfl

theorem four_le_weight (h : node.isReference = true) : 4 ≤ node.weight limit := by
  have := two_le_reference limit h
  have := sum_weightUnder_le limit (show ["$ref"].Nodup by decide) node
  simp only [List.map_cons, List.map_nil, List.sum_cons, List.sum_nil] at this
  omega

theorem innersLoads_add_tagsLoad (inners : List (Inner node)) :
    innersLoads limit inners + tagsLoad inners = innersLoad limit inners := by
  have each (inner : Inner node) : inner.node.load limit + (if inner.node.isReference then 3 else 0) =
      inner.node.weight limit := by
    unfold load
    split
    · have := four_le_weight limit ‹_›
      omega
    · rfl
  simp only [innersLoads, tagsLoad, innersLoad, ← List.sum_map_add, each]

theorem innersLoads_le (inners : List (Inner node)) :
    innersLoads limit inners ≤ innersLoad limit inners :=
  Nat.le_of_add_right_le (Nat.le_of_eq (innersLoads_add_tagsLoad limit inners))

theorem itemsLoad_le (node : Json) : itemsLoad limit (items node) ≤ weightUnder limit node "items" := by
  unfold items
  split
  · rename_i inners hi
    rw [weightUnder_innerItems limit hi]
    exact Nat.le_add_left _ _
  · split
    · rename_i inner hi
      exact Nat.le_of_eq (weightUnder_inner limit hi).symm
    · exact Nat.zero_le _

theorem additionalLoad_le (node : Json) :
    additionalLoad limit (additional node) ≤ weightUnder limit node "additionalProperties" := by
  unfold additional
  split
  · exact Nat.zero_le _
  · rename_i inner hi
    rw [weightUnder_inner limit hi]
    split
    · exact Nat.zero_le _
    · exact Nat.le_of_succ_le (two_le_weight limit _)
    · exact Nat.le_of_succ_le (two_le_weight limit _)
    · exact Nat.le_refl _

theorem objectLoad_le (node : Json) : objectLoad limit (objectShape node) ≤
    weightUnder limit node "properties" + weightUnder limit node "additionalProperties" := by
  refine Nat.add_le_add ?_ (additionalLoad_le limit node)
  simp only [objectShape]
  cases hp : node.innerFields? "properties" with
  | none => exact Nat.zero_le _
  | some fields => exact Nat.le_trans (Nat.le_add_left _ _) (weightUnder_innerFields limit hp)

/-- What a schema holds under the keywords of the kinds that have parts. -/
def partsWeight (limit : Nat) (node : Json) : Nat :=
  weightUnder limit node "properties" + weightUnder limit node "additionalProperties" +
    weightUnder limit node "items"

theorem coreLoad_le {kind : String} {core : Core (Inner node)} (h : coreOf? node kind = .ok core) :
    coreLoad limit core ≤ 2 + partsWeight limit node := by
  have ofObject : objectLoad limit (objectShape node) ≤ _ := objectLoad_le limit node
  have ofArray : itemsLoad limit (items node) ≤ _ := itemsLoad_le limit node
  unfold coreOf? at h
  split at h <;> cases h <;> simp only [coreLoad, partsWeight] <;> omega

/-- What is made of one kind that a schema names. -/
def kindLoad (node : Json) (name : String) : Nat :=
  if name = "object" then 2 + objectLoad limit (objectShape node)
  else if name = "array" then 2 + itemsLoad limit (items node)
  else 1

theorem coreLoad_eq {name : String} {core : Core (Inner node)} (h : coreOf? node name = .ok core) :
    coreLoad limit core = kindLoad limit node name := by
  unfold coreOf? at h
  split at h <;> cases h <;> simp [coreLoad, kindLoad]

/-- Kinds that have parts count as often as they are named. -/
theorem sum_kindLoad_le (node : Json) (names : List String) :
    (names.map (kindLoad limit node)).sum ≤ 2 * names.length +
      names.count "object" * objectLoad limit (objectShape node) +
      names.count "array" * itemsLoad limit (items node) := by
  induction names with
  | nil => simp
  | cons name rest ih =>
    simp only [List.map_cons, List.sum_cons, List.length_cons, List.count_cons, kindLoad]
    by_cases object : name = "object"
    · subst object
      simp [Nat.succ_mul]
      omega
    · by_cases array : name = "array"
      · subst array
        simp [Nat.succ_mul]
        omega
      · simp [object, array]
        omega

theorem coresOf_cases {kinds : List Json} {cores : List (Core (Inner node))}
    (h : coresOf? node kinds = .ok cores) : ∃ names, kinds = names.map Json.string ∧
      List.Forall₂ (fun name core => coreOf? node name = .ok core) names cores := by
  induction kinds generalizing cores with
  | nil =>
    cases h
    exact ⟨[], rfl, .nil⟩
  | cons kind rest ih =>
    cases kind with
    | string name =>
      unfold coresOf? at h
      split at h
      · cases h
      · rename_i core first
        split at h
        · cases h
        · rename_i later others
          cases h
          obtain ⟨names, rfl, each⟩ := ih others
          exact ⟨name :: names, rfl, .cons first each⟩
    | _ => cases h

/-- One kind, written or told from the keywords there are, or several that are written. -/
theorem base_cases {base : Base (Inner node)} (h : base? node = .ok (some base)) :
    (∃ name core, coreOf? node name = .ok core ∧ base = .one core) ∨
    ∃ names cores, node.get? "type" = some (.array (names.map Json.string)) ∧
      List.Forall₂ (fun name core => coreOf? node name = .ok core) names cores ∧
      base = .several cores := by
  unfold base? at h
  split at h
  · rename_i name _
    cases hc : coreOf? node name with
    | error kind => simp [hc, Except.map] at h
    | ok core =>
      simp only [hc, Except.map, Except.ok.injEq, Option.some.injEq] at h
      exact .inl ⟨name, core, hc, h.symm⟩
  · rename_i kinds written
    cases hc : coresOf? node kinds with
    | error kind => simp [hc, Except.map] at h
    | ok cores =>
      obtain ⟨names, rfl, each⟩ := coresOf_cases hc
      simp only [hc, Except.map, Except.ok.injEq] at h
      split at h
      · cases h
      · cases h
        obtain _ | ⟨first, _⟩ := each
        exact .inl ⟨_, _, first, rfl⟩
      · cases h
        exact .inr ⟨names, _, written, each, rfl⟩
  · cases h
  · split at h
    · cases h
      exact .inl ⟨"object", _, rfl, rfl⟩
    · split at h
      · cases h
        exact .inl ⟨"array", _, rfl, rfl⟩
      · cases h

theorem baseLoad_le {base : Base (Inner node)} (h : base? node = .ok (some base)) :
    baseLoad limit base ≤ 2 + weightUnder limit node "type" + partsWeight limit node := by
  rcases base_cases h with ⟨name, core, hc, rfl⟩ | ⟨names, cores, written, each, rfl⟩
  · have := coreLoad_le limit hc
    rw [baseLoad]
    omega
  · have ofObject : objectLoad limit (objectShape node) ≤ _ := objectLoad_le limit node
    have ofArray : itemsLoad limit (items node) ≤ _ := itemsLoad_le limit node
    have kinds : 2 + 2 * cores.length ≤ weightUnder limit node "type" := by
      have := length_le_itemsWeight limit (names.map Json.string)
      rw [List.length_map, each.length_eq] at this
      rw [weightUnder_of_some limit written, weight]
      omega
    rw [baseLoad, partsWeight]
    omega

/-- A list of schemas weighs more than what is made of it counts. -/
theorem listLoad_le (node : Json) (key : String) :
    listLoad limit (node.innerItems? key) ≤ weightUnder limit node key ∧
      ((node.innerItems? key).isSome →
        listLoad limit (node.innerItems? key) < weightUnder limit node key) := by
  cases hi : node.innerItems? key with
  | none => exact ⟨Nat.zero_le _, fun none => Bool.noConfusion none⟩
  | some inners =>
    rw [weightUnder_innerItems limit hi, listLoad]
    omega

/-- What a schema holds under the keywords of composition. -/
def compositionWeight (limit : Nat) (node : Json) : Nat :=
  weightUnder limit node "allOf" + weightUnder limit node "oneOf" +
    weightUnder limit node "anyOf" + weightUnder limit node "not"

theorem compositionLoad_lt (h : (composition node).isEmpty = false) :
    compositionLoad limit (composition node) < compositionWeight limit node := by
  have ofAll := listLoad_le limit node "allOf"
  have ofOne := listLoad_le limit node "oneOf"
  have ofAny := listLoad_le limit node "anyOf"
  have ofNot : notLoad (node.get? "not") ≤ weightUnder limit node "not" ∧
      ((node.get? "not").isSome → notLoad (node.get? "not") < weightUnder limit node "not") := by
    cases hn : node.get? "not" with
    | none => exact ⟨Nat.zero_le _, fun none => Bool.noConfusion none⟩
    | some schema =>
      have := two_le_weight limit schema
      rw [weightUnder_of_some limit hn, notLoad]
      omega
  have some : (node.innerItems? "allOf").isSome ∨ (node.innerItems? "oneOf").isSome ∨
      (node.innerItems? "anyOf").isSome ∨ (node.get? "not").isSome := by
    by_contra none
    simp only [not_or, Bool.not_eq_true, Option.isSome_eq_false_iff] at none
    simp [Composition.isEmpty, composition, none] at h
  simp only [compositionLoad, compositionWeight, composition]
  rcases some with some | some | some | some
  · have := ofAll.2 some
    omega
  · have := ofOne.2 some
    omega
  · have := ofAny.2 some
    omega
  · have := ofNot.2 some
    omega

theorem nullLoad_le (node : Json) :
    nullLoad node ≤ weightUnder limit node "nullable" + weightUnder limit node "x-nullable" := by
  have written {key : String} (h : node.flag key = true) : 2 ≤ weightUnder limit node key := by
    refine two_le_weightUnder limit ?_
    cases hv : node.get? key with
    | none => simp [flag, hv] at h
    | some value => rfl
  unfold nullLoad
  split
  · rename_i nullable
    rcases Bool.or_eq_true_iff.1 nullable with flag | flag
    · exact Nat.le_add_right_of_le (written flag)
    · exact Nat.le_add_left_of_le (written flag)
  · exact Nat.zero_le _

/-- The keywords that what is made of a schema depends on. -/
def countedKeywords : List String :=
  ["type", "properties", "additionalProperties", "items", "allOf", "oneOf", "anyOf", "not", "enum",
    "$ref", "nullable", "x-nullable"]

theorem keywords_le_weight (node : Json) :
    2 + weightUnder limit node "type" + partsWeight limit node + compositionWeight limit node +
      weightUnder limit node "enum" + weightUnder limit node "$ref" + nullLoad node +
      (if node.isReference then limit else 0) ≤ node.weight limit := by
  have := sum_weightUnder_le limit (show countedKeywords.Nodup by decide) node
  have := nullLoad_le limit node
  simp only [countedKeywords, List.map_cons, List.map_nil, List.sum_cons, List.sum_nil] at *
  simp only [partsWeight, compositionWeight]
  omega

theorem bareShape_load (node : Json) : shapeLoad limit (bareShape node) = 1 := by
  unfold bareShape
  dsimp only
  split <;> rfl

theorem objectSchemaShape_load_le (node : Json) :
    shapeLoad limit (objectSchemaShape node) + nullLoad node ≤ node.weight limit := by
  have := keywords_le_weight limit node
  unfold objectSchemaShape
  split
  · rename_i values listed
    split
    · obtain ⟨list, written, hl⟩ := Option.bind_eq_some_iff.1 listed
      have enum : 2 + 2 * values.length ≤ weightUnder limit node "enum" := by
        cases list with
        | array items =>
          cases hl
          have := length_le_itemsWeight limit values
          rw [weightUnder_of_some limit written, weight]
          omega
        | _ => cases hl
      rw [shapeLoad]
      omega
    · rw [shapeLoad]
      omega
  · split
    · rw [shapeLoad]
      omega
    · split
      · rw [shapeLoad]
        omega
      · rename_i base hb
        split
        · cases base with
          | none =>
            simp only [bareShape_load]
            omega
          | some base =>
            have := baseLoad_le limit hb
            simp only [shapeLoad]
            omega
        · rename_i composed
          have := compositionLoad_lt limit (by simpa using composed)
          cases base with
          | none =>
            simp only [shapeLoad, Option.elim]
            omega
          | some base =>
            have := baseLoad_le limit hb
            simp only [shapeLoad, Option.elim]
            omega

/-- What is made of a schema, counted by its shape, is within its load. -/
theorem shapeLoad_le (node : Json) : shapeLoad limit (shape node) + nullLoad node ≤ node.load limit := by
  have other (h : ∀ key, node.get? key = none) : 1 + nullLoad node ≤ node.load limit := by
    have := two_le_weight limit node
    simp [nullLoad, isNullable, flag, load, isReference, reference?, text?, h]
    omega
  unfold shape
  split
  · exact other fun _ => rfl
  · exact other fun _ => rfl
  · rename_i fields
    unfold load
    split
    · rename_i reference hr
      have := keywords_le_weight limit (.object fields)
      have isReference : (Json.object fields).isReference = true := by simp [Json.isReference, hr]
      have := two_le_reference limit isReference
      simp only [isReference, if_true, shapeLoad] at *
      omega
    · rename_i hr
      have := objectSchemaShape_load_le limit (.object fields)
      simpa [isReference, hr] using this
  · rename_i none
    exact other fun key => by cases node <;> simp_all [get?]

end

/-! ## Kinds that are repeated -/

/-- The kinds that a schema lists. -/
def listedKinds (node : Json) : List String :=
  (((node.get? "type").bind array?).getD []).filterMap string?

/-- Whether a schema lists one of the kinds that have parts more than once. -/
def repeatsKind (node : Json) : Bool :=
  1 < node.listedKinds.count "object" || 1 < node.listedKinds.count "array"

mutual

/-- How many schemas in one another list a kind that has parts more than once. -/
def repeats : Json → Nat
  | .array items => itemsRepeats items
  | .object fields => fieldsRepeats fields + if (Json.object fields).repeatsKind then 1 else 0
  | .null | .bool _ | .number _ | .string _ => 0

def itemsRepeats : List Json → Nat
  | [] => 0
  | item :: rest => max item.repeats (itemsRepeats rest)

def fieldsRepeats : List (String × Json) → Nat
  | [] => 0
  | (_, value) :: rest => max value.repeats (fieldsRepeats rest)

end

/-- The same below a value, without the value itself. -/
def repeatsInside : Json → Nat
  | .array items => itemsRepeats items
  | .object fields => fieldsRepeats fields
  | .null | .bool _ | .number _ | .string _ => 0

theorem repeats_eq (node : Json) :
    node.repeats = node.repeatsInside + if node.repeatsKind then 1 else 0 := by
  cases node <;> simp [repeats, repeatsInside, repeatsKind, listedKinds, get?]

theorem repeatsInside_le (node : Json) : node.repeatsInside ≤ node.repeats :=
  Nat.le_of_add_right_le (Nat.le_of_eq node.repeats_eq.symm)

theorem repeats_le_of_mem_items {items : List Json} {item : Json} (h : item ∈ items) :
    item.repeats ≤ itemsRepeats items := by
  induction items with
  | nil => cases h
  | cons first rest ih =>
    rw [itemsRepeats]
    rcases List.mem_cons.1 h with rfl | h
    · exact Nat.le_max_left _ _
    · exact Nat.le_trans (ih h) (Nat.le_max_right _ _)

theorem repeats_le_of_mem_fields {fields : List (String × Json)} {field : String × Json}
    (h : field ∈ fields) : field.2.repeats ≤ fieldsRepeats fields := by
  induction fields with
  | nil => cases h
  | cons first rest ih =>
    rw [fieldsRepeats]
    rcases List.mem_cons.1 h with rfl | h
    · exact Nat.le_max_left _ _
    · exact Nat.le_trans (ih h) (Nat.le_max_right _ _)

theorem repeats_step {node child : Json} {segment : String} (h : node.step? segment = some child) :
    child.repeats ≤ node.repeatsInside := by
  cases node with
  | object fields => exact repeats_le_of_mem_fields (mem_of_lookup h)
  | array items =>
    simp only [step?, Option.bind_eq_some_iff] at h
    obtain ⟨number, -, h⟩ := h
    exact repeats_le_of_mem_items (List.mem_of_getElem? h)
  | _ => cases h

theorem repeats_walk {path : List String} {node target : Json} (h : node.walk? path = some target) :
    target.repeats ≤ node.repeats := by
  refine walk_keeps (P := fun within => within.repeats ≤ node.repeats) ?_ (Nat.le_refl _) h
  intro inner child segment le step
  rw [inner.repeats_eq] at le
  exact Nat.le_trans (repeats_step step) (Nat.le_trans (Nat.le_add_right _ _) le)

/-! ## Places -/

section
variable (limit : Nat)

theorem weight_le_of_mem_items {items : List Json} {item : Json} (h : item ∈ items) :
    item.weight limit ≤ itemsWeight limit items := by
  induction items with
  | nil => cases h
  | cons first rest ih =>
    rw [itemsWeight]
    rcases List.mem_cons.1 h with rfl | h
    · exact Nat.le_add_right _ _
    · exact Nat.le_trans (ih h) (Nat.le_add_left _ _)

theorem weight_le_of_mem_fields {fields : List (String × Json)} {field : String × Json}
    (h : field ∈ fields) : field.2.weight limit ≤ fieldsWeight limit fields := by
  induction fields with
  | nil => cases h
  | cons first rest ih =>
    rw [fieldsWeight]
    rcases List.mem_cons.1 h with rfl | h
    · exact Nat.le_add_right _ _
    · exact Nat.le_trans (ih h) (Nat.le_add_left _ _)

theorem weight_step {node child : Json} {segment : String} (h : node.step? segment = some child) :
    child.weight limit ≤ node.weight limit := by
  cases node with
  | object fields =>
    have : child.weight limit ≤ fieldsWeight limit fields :=
      weight_le_of_mem_fields limit (mem_of_lookup h)
    rw [weight]
    omega
  | array items =>
    simp only [step?, Option.bind_eq_some_iff] at h
    obtain ⟨number, -, h⟩ := h
    have := weight_le_of_mem_items limit (List.mem_of_getElem? h)
    rw [weight]
    omega
  | _ => cases h

/-- A value is no heavier than what it stands in. -/
theorem weight_walk {path : List String} {node target : Json} (h : node.walk? path = some target) :
    target.weight limit ≤ node.weight limit := by
  refine walk_keeps (P := fun within => within.weight limit ≤ node.weight limit) ?_ (Nat.le_refl _) h
  intro inner child segment le step
  exact Nat.le_trans (weight_step limit step) le

end

mutual

theorem weight_eq (limit : Nat) (here : Pointer) : (node : Json) → node.weight limit =
    2 * (node.locations here).length + limit * (node.locations here).countP (·.2.isReference)
  | .array items => by
    have := itemsWeight_eq_locations limit here 0 items
    simp only [weight, locations, List.length_cons, List.countP_cons]
    simp [this, isReference, reference?, text?, get?]
    omega
  | .object fields => by
    have := fieldsWeight_eq_locations limit here fields
    simp only [weight, locations, List.length_cons, List.countP_cons]
    rw [this]
    split <;> ring
  | .null => by simp [weight, locations, isReference, reference?, text?, get?]
  | .bool _ => by simp [weight, locations, isReference, reference?, text?, get?]
  | .number _ => by simp [weight, locations, isReference, reference?, text?, get?]
  | .string _ => by simp [weight, locations, isReference, reference?, text?, get?]

theorem itemsWeight_eq_locations (limit : Nat) (here : Pointer) (number : Nat) :
    (items : List Json) → itemsWeight limit items =
      2 * (itemLocations here number items).length +
        limit * (itemLocations here number items).countP (·.2.isReference)
  | [] => by simp [itemsWeight, itemLocations]
  | item :: rest => by
    rw [itemsWeight, weight_eq limit (here.element number) item,
      itemsWeight_eq_locations limit here (number + 1) rest, itemLocations, List.length_append,
      List.countP_append]
    ring

theorem fieldsWeight_eq_locations (limit : Nat) (here : Pointer) :
    (fields : List (String × Json)) → fieldsWeight limit fields =
      2 * (fieldLocations here fields).length +
        limit * (fieldLocations here fields).countP (·.2.isReference)
  | [] => by simp [fieldsWeight, fieldLocations]
  | (key, value) :: rest => by
    rw [fieldsWeight, weight_eq limit (here.child key) value,
      fieldsWeight_eq_locations limit here rest, fieldLocations, List.length_append,
      List.countP_append]
    ring

end

mutual

theorem count_locations_le (here : Pointer) : (node : Json) →
    (node.locations here).countP (·.2.isPlain) + 2 * (node.locations here).countP (·.2.isReference) ≤
      (node.locations here).length
  | .array items => by
    have := count_itemLocations_le here 0 items
    simp only [locations, List.length_cons, List.countP_cons]
    simp [isPlain, isObject, isReference, reference?, text?, get?] at this ⊢
    omega
  | .object fields => by
    have := count_fieldLocations_le here fields
    have := count_fieldLocations_lt here fields
    simp only [locations, List.length_cons, List.countP_cons]
    cases hr : (Json.object fields).isReference <;> simp [isPlain, isObject, hr] at * <;> omega
  | .null => by simp [locations, isPlain, isObject, isReference, reference?, text?, get?]
  | .bool _ => by simp [locations, isPlain, isObject, isReference, reference?, text?, get?]
  | .number _ => by simp [locations, isPlain, isObject, isReference, reference?, text?, get?]
  | .string _ => by simp [locations, isPlain, isObject, isReference, reference?, text?, get?]

theorem count_itemLocations_le (here : Pointer) (number : Nat) : (items : List Json) →
    (itemLocations here number items).countP (·.2.isPlain) +
        2 * (itemLocations here number items).countP (·.2.isReference) ≤
      (itemLocations here number items).length
  | [] => by simp [itemLocations]
  | item :: rest => by
    have := count_locations_le (here.element number) item
    have := count_itemLocations_le here (number + 1) rest
    simp only [itemLocations, List.length_append, List.countP_append]
    omega

theorem count_fieldLocations_le (here : Pointer) : (fields : List (String × Json)) →
    (fieldLocations here fields).countP (·.2.isPlain) +
        2 * (fieldLocations here fields).countP (·.2.isReference) ≤
      (fieldLocations here fields).length
  | [] => by simp [fieldLocations]
  | (key, value) :: rest => by
    have := count_locations_le (here.child key) value
    have := count_fieldLocations_le here rest
    simp only [fieldLocations, List.length_append, List.countP_append]
    omega

/-- The text of a reference is a place of its own. -/
theorem count_fieldLocations_lt (here : Pointer) : (fields : List (String × Json)) →
    (Json.object fields).isReference = true → (fieldLocations here fields).countP (·.2.isPlain) +
        2 * (fieldLocations here fields).countP (·.2.isReference) <
      (fieldLocations here fields).length
  | [], h => by simp [isReference, reference?, text?, get?] at h
  | (key, value) :: rest, h => by
    have := count_locations_le (here.child key) value
    have := count_fieldLocations_le here rest
    simp only [fieldLocations, List.length_append, List.countP_append]
    by_cases same : "$ref" = key
    · cases value with
      | string text =>
        simp [locations, isPlain, isObject, isReference, reference?, text?, get?] at *
        omega
      | _ => simp [isReference, reference?, text?, get?, same, string?] at h
    · have := count_fieldLocations_lt here rest (by
        simpa [isReference, reference?, text?, get?, List.lookup_cons, beq_false_of_ne same] using h)
      omega

end

end Json

/-! ## Schemas of a document -/

namespace Index

variable (index : Index)

/-- How many schemas of a document say what they say by themselves. -/
def plainPlaces : Nat :=
  index.locations.countP (·.2.isPlain)

/-- How many schemas of a document are references. -/
def references : Nat :=
  index.locations.countP (·.2.isReference)

theorem weight_root (limit : Nat) :
    index.document.root.weight limit = 2 * index.size + limit * index.references :=
  Json.weight_eq limit .root index.document.root

theorem size_pos : 0 < index.size :=
  List.length_pos_of_mem (mem_locations index.get?_root)

theorem plainPlaces_references_le : index.plainPlaces + 2 * index.references ≤ index.size :=
  Json.count_locations_le .root index.document.root

variable {index}

theorem load_le_root (limit : Nat) {place : Pointer} {node : Json}
    (h : index.get? place = some node) : node.load limit ≤ index.document.root.weight limit :=
  Nat.le_trans (Json.load_le_weight node) (Json.weight_walk limit h)

theorem repeats_le_root {place : Pointer} {node : Json} (h : index.get? place = some node) :
    node.repeats ≤ index.document.root.repeats :=
  Json.repeats_walk h

end Index

/-- A place that stands inside what stands at another. -/
def Pointer.Below (place below : Pointer) : Prop :=
  ∃ segment rest, below.segments = place.segments ++ segment :: rest

namespace Pointer

theorem below_child (place : Pointer) (key : String) : place.Below (place.child key) :=
  ⟨key, [], rfl⟩

theorem Below.child {place below : Pointer} (h : place.Below below) (key : String) :
    place.Below (below.child key) := by
  obtain ⟨segment, rest, he⟩ := h
  exact ⟨segment, rest ++ [key], by simp [Pointer.child, he]⟩

end Pointer

theorem Index.repeats_le_of_below {index : Index} {place below : Pointer} {node inner : Json}
    (h : index.get? place = some node) (hi : index.get? below = some inner)
    (inside : place.Below below) : inner.repeats ≤ node.repeatsInside := by
  obtain ⟨segment, rest, he⟩ := inside
  unfold get? at h hi
  rw [he, Json.walk?_append, h, Option.bind_some] at hi
  simp only [Json.walk?, Option.bind_eq_some_iff] at hi
  obtain ⟨child, first, later⟩ := hi
  exact Nat.le_trans (Json.repeats_walk later) (Json.repeats_step first)

end ApiTypes
