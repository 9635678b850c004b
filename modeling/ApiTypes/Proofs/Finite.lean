import ApiTypes.Proofs.Meaning.Valid
import ApiTypes.Proofs.Place

/-!
# Documents with finite numbers

`Json.Finite` says that no number in a value is an infinity or what is not a number, also when it is
taken as floating point. It goes on to everything in the value (`Finite.walk`), and so to every
node of a document.
-/

namespace ApiTypes

namespace Json

inductive Finite : Json → Prop
  | null : Finite .null
  | bool (value : Bool) : Finite (.bool value)
  | number {value : Number} (finite : value.toBinary.isFinite = true) : Finite (.number value)
  | string (text : String) : Finite (.string text)
  | array {items : List Json} (inner : ∀ item ∈ items, Finite item) : Finite (.array items)
  | object {fields : List (String × Json)} (inner : ∀ field ∈ fields, Finite field.2) :
      Finite (.object fields)

@[simp]
theorem finite_array_iff {items : List Json} :
    (Json.array items).Finite ↔ ∀ item ∈ items, item.Finite :=
  ⟨fun h => by cases h; assumption, .array⟩

@[simp]
theorem finite_object_iff {fields : List (String × Json)} :
    (Json.object fields).Finite ↔ ∀ field ∈ fields, field.2.Finite :=
  ⟨fun h => by cases h; assumption, .object⟩

@[simp]
theorem finite_number_iff {value : Number} :
    (Json.number value).Finite ↔ value.toBinary.isFinite = true :=
  ⟨fun h => by cases h; assumption, .number⟩

attribute [simp] Finite.null Finite.bool Finite.string

theorem Finite.step {node child : Json} {segment : String} (h : node.Finite)
    (hs : node.step? segment = some child) : child.Finite := by
  cases h with
  | null | bool | number | string => cases hs
  | array inner =>
    obtain ⟨n, -, hn⟩ := Option.bind_eq_some_iff.1 hs
    exact inner child (List.mem_of_getElem? hn)
  | object inner => exact inner (segment, child) (mem_of_lookup hs)

theorem Finite.walk {node target : Json} {path : List String} (h : node.Finite)
    (hw : node.walk? path = some target) : target.Finite :=
  walk_keeps Finite.step h hw

mutual

/-- Merging repeated keys brings in no numbers. -/
theorem Finite.merged : (node : Json) → node.Finite → node.merged.Finite
  | .array items, h => by
    cases h with
    | array inner => exact .array (finite_mergedItems items inner)
  | .object fields, h => by
    cases h with
    | object inner =>
      refine .object fun field hm => ?_
      obtain ⟨source, hs, same⟩ := mem_mergeFields hm
      exact same ▸ finite_mergedFields fields inner source hs
  | .null, h => h
  | .bool _, h => h
  | .number _, h => h
  | .string _, h => h

theorem finite_mergedItems : (items : List Json) → (∀ item ∈ items, item.Finite) →
    ∀ item ∈ mergedItems items, item.Finite
  | [], _ => by simp [mergedItems]
  | first :: rest, h => by
    intro item hm
    rcases List.mem_cons.1 hm with rfl | hm
    · exact Finite.merged first (h first List.mem_cons_self)
    · exact finite_mergedItems rest (fun i hi => h i (List.mem_cons_of_mem _ hi)) item hm

theorem finite_mergedFields : (fields : List (String × Json)) →
    (∀ field ∈ fields, field.2.Finite) → ∀ field ∈ mergedFields fields, field.2.Finite
  | [], _ => by simp [mergedFields]
  | (key, value) :: rest, h => by
    intro field hm
    rcases List.mem_cons.1 hm with rfl | hm
    · exact Finite.merged value (h (key, value) List.mem_cons_self)
    · exact finite_mergedFields rest (fun f hf => h f (List.mem_cons_of_mem _ hf)) field hm

end

end Json

/-- Every node of a document with finite numbers has finite numbers. -/
theorem Index.finite_get? {index : Index} {place : Pointer} {node : Json}
    (h : index.document.root.Finite) (hn : index.get? place = some node) : node.Finite :=
  h.walk hn

end ApiTypes
