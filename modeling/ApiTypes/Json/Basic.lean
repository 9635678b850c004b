import ApiTypes.Binary64.Basic

/-!
JSON values. Objects keep the order of their fields, and whole numbers are kept apart from
floating point ones. `Document` is a value in which no object repeats a key; `Json.merged` makes
one of any value.
-/

namespace ApiTypes

/-- A number: whole, or floating point. `1` and `1.0` are different numbers. -/
inductive Number
  | int (value : Int)
  | float (value : Binary64)
  deriving DecidableEq, Repr

inductive Json
  | null
  | bool (value : Bool)
  | number (value : Number)
  | string (value : String)
  | array (items : List Json)
  | object (fields : List (String × Json))
  deriving Repr

namespace Json

/-! ### Views -/

def string? : Json → Option String
  | .string text => some text
  | _ => none

def bool? : Json → Option Bool
  | .bool value => some value
  | _ => none

def array? : Json → Option (List Json)
  | .array items => some items
  | _ => none

def object? : Json → Option (List (String × Json))
  | .object fields => some fields
  | _ => none

def isObject : Json → Bool
  | .object _ => true
  | _ => false

/-- The value under a key. Only objects have one. -/
def get? (node : Json) (key : String) : Option Json :=
  match node with
  | .object fields => fields.lookup key
  | _ => none

/-- The text under a key. -/
def text? (node : Json) (key : String) : Option String :=
  (node.get? key).bind string?

/-- Whether `true` stands under a key. -/
def flag (node : Json) (key : String) : Bool :=
  (node.get? key).bind bool? == some true

/-! ### Repeated keys -/

/-- Puts a field into an object. A key that is there already keeps its place and takes the new
value. -/
def putField {α : Type} (key : String) (value : α) : List (String × α) → List (String × α)
  | [] => [(key, value)]
  | (k, v) :: rest => if k = key then (k, value) :: rest else (k, v) :: putField key value rest

/-- Fields put into an empty object one after the other. -/
def mergeFields {α : Type} (fields : List (String × α)) : List (String × α) :=
  fields.foldl (fun merged field => putField field.1 field.2 merged) []

mutual

/-- The value with the repeated keys of every object merged. -/
def merged : Json → Json
  | .array items => .array (mergedItems items)
  | .object fields => .object (mergeFields (mergedFields fields))
  | .null => .null
  | .bool value => .bool value
  | .number value => .number value
  | .string text => .string text

def mergedItems : List Json → List Json
  | [] => []
  | item :: rest => item.merged :: mergedItems rest

def mergedFields : List (String × Json) → List (String × Json)
  | [] => []
  | (key, value) :: rest => (key, value.merged) :: mergedFields rest

end

mutual

/-- No object within the value repeats a key. -/
def DistinctKeys : Json → Prop
  | .array items => DistinctItems items
  | .object fields => (fields.map (·.1)).Nodup ∧ DistinctFields fields
  | _ => True

def DistinctItems : List Json → Prop
  | [] => True
  | item :: rest => item.DistinctKeys ∧ DistinctItems rest

def DistinctFields : List (String × Json) → Prop
  | [] => True
  | (_, value) :: rest => value.DistinctKeys ∧ DistinctFields rest

end

theorem distinctItems_iff {items : List Json} :
    DistinctItems items ↔ ∀ item ∈ items, item.DistinctKeys := by
  induction items with
  | nil => simp [DistinctItems]
  | cons item rest ih => simp [DistinctItems, ih]

theorem distinctFields_iff {fields : List (String × Json)} :
    DistinctFields fields ↔ ∀ field ∈ fields, field.2.DistinctKeys := by
  induction fields with
  | nil => simp [DistinctFields]
  | cons field rest ih => simp [DistinctFields, ih]

theorem mem_putField {α : Type} {key : String} {value : α} {fields : List (String × α)}
    {field : String × α} (member : field ∈ putField key value fields) :
    field.2 = value ∨ field ∈ fields := by
  induction fields with
  | nil =>
    simp only [putField, List.mem_singleton] at member
    exact .inl (by rw [member])
  | cons head rest ih =>
    simp only [putField] at member
    split at member
    · rcases List.mem_cons.1 member with rfl | later
      · exact .inl rfl
      · exact .inr (List.mem_cons_of_mem _ later)
    · rcases List.mem_cons.1 member with rfl | later
      · exact .inr List.mem_cons_self
      · exact (ih later).imp_right (List.mem_cons_of_mem _)

theorem keys_putField {α : Type} (key : String) (value : α) (fields : List (String × α)) :
    (putField key value fields).map (·.1) =
      if key ∈ fields.map (·.1) then fields.map (·.1) else fields.map (·.1) ++ [key] := by
  induction fields with
  | nil => simp [putField]
  | cons head rest ih =>
    simp only [putField]
    split
    · rename_i same
      simp [same]
    · rename_i other
      simp only [List.map_cons, ih, List.mem_cons]
      have : ¬ key = head.1 := fun h => other h.symm
      by_cases later : key ∈ rest.map (·.1) <;> simp [later, this]

theorem nodup_keys_putField {α : Type} {key : String} {value : α} {fields : List (String × α)}
    (distinct : (fields.map (·.1)).Nodup) : ((putField key value fields).map (·.1)).Nodup := by
  rw [keys_putField]
  split
  · exact distinct
  · rename_i absent
    exact List.nodup_append.2 ⟨distinct, by simp, by
      intro a first b second
      rw [List.mem_singleton.1 second]
      rintro rfl
      exact absent first⟩

theorem nodup_keys_mergeFields {α : Type} (fields : List (String × α)) :
    ((mergeFields fields).map (·.1)).Nodup := by
  have grows (fields merged : List (String × α)) (start : (merged.map (·.1)).Nodup) :
      ((fields.foldl (fun merged field => putField field.1 field.2 merged) merged).map
        (·.1)).Nodup := by
    induction fields generalizing merged with
    | nil => exact start
    | cons field rest ih => exact ih _ (nodup_keys_putField start)
  exact grows fields [] List.nodup_nil

theorem mem_mergeFields {α : Type} {fields : List (String × α)} {field : String × α}
    (member : field ∈ mergeFields fields) : ∃ source ∈ fields, source.2 = field.2 := by
  have grows (fields merged : List (String × α))
      (member : field ∈ fields.foldl (fun merged field => putField field.1 field.2 merged) merged) :
      field ∈ merged ∨ ∃ source ∈ fields, source.2 = field.2 := by
    induction fields generalizing merged with
    | nil => exact .inl member
    | cons first rest ih =>
      rcases ih _ member with early | ⟨source, later, same⟩
      · rcases mem_putField early with same | before
        · exact .inr ⟨first, List.mem_cons_self, same.symm⟩
        · exact .inl before
      · exact .inr ⟨source, List.mem_cons_of_mem _ later, same⟩
  exact (grows fields [] member).resolve_left List.not_mem_nil

mutual

theorem distinctKeys_merged : (node : Json) → node.merged.DistinctKeys
  | .array items => by
    simp only [merged, DistinctKeys]
    exact distinctItems_mergedItems items
  | .object fields => by
    simp only [merged, DistinctKeys]
    refine ⟨nodup_keys_mergeFields _, distinctFields_iff.2 ?_⟩
    intro field member
    obtain ⟨source, place, same⟩ := mem_mergeFields member
    rw [← same]
    exact distinctFields_iff.1 (distinctFields_mergedFields fields) source place
  | .null => by simp [merged, DistinctKeys]
  | .bool _ => by simp [merged, DistinctKeys]
  | .number _ => by simp [merged, DistinctKeys]
  | .string _ => by simp [merged, DistinctKeys]

theorem distinctItems_mergedItems : (items : List Json) → DistinctItems (mergedItems items)
  | [] => by simp [mergedItems, DistinctItems]
  | item :: rest => by
    simp only [mergedItems, DistinctItems]
    exact ⟨distinctKeys_merged item, distinctItems_mergedItems rest⟩

theorem distinctFields_mergedFields :
    (fields : List (String × Json)) → DistinctFields (mergedFields fields)
  | [] => by simp [mergedFields, DistinctFields]
  | (_, value) :: rest => by
    simp only [mergedFields, DistinctFields]
    exact ⟨distinctKeys_merged value, distinctFields_mergedFields rest⟩

end

end Json

/-- A JSON value in which no object repeats a key. -/
structure Document where
  root : Json
  distinct : root.DistinctKeys

namespace Document

/-- The document a value stands for: repeated keys are merged. -/
def ofJson (value : Json) : Document :=
  ⟨value.merged, Json.distinctKeys_merged value⟩

end Document

end ApiTypes
