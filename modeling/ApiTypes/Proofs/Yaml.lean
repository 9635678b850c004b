import ApiTypes.Proofs.Loading
import Mathlib.Algebra.Group.Int.Defs
import Mathlib.Data.List.Induction
import Mathlib.Logic.Relation

/-!
# The JSON values of YAML values

What a YAML value stands for, told without the functions that find it:

* `keys_mergeFields`, `mem_mergeFields_iff`: of fields put into an object one after the other, each key
  is where it comes first and has the value that comes last;
* `numberJson_eq_firstView`: a number is a whole one if it can be had as one of 64 bits;
* `toJson_ofJson`: a JSON value that is read as YAML, with strings for keys, comes back;
* `toJson_mapping`: the keys and values of a mapping;
* `alike_of_dropsTags`: taking tags off makes no difference, wherever they are;
* `toJson_laws`: all of it.
-/

namespace ApiTypes

namespace Json

/-! ## Fields put together -/

section
variable {α : Type} {fields : List (String × α)} {field : String × α} {key : String} {value : α}

theorem putField_of_not_mem (absent : key ∉ fields.map (·.1)) :
    putField key value fields = fields ++ [(key, value)] := by
  induction fields with
  | nil => rfl
  | cons first rest ih =>
    rw [List.map_cons, List.mem_cons, not_or] at absent
    rw [putField, if_neg (Ne.symm absent.1), ih absent.2, List.cons_append]

/-- Where no key stands twice, a field that is put in takes the place of the one with its key. -/
theorem mem_putField_iff (distinct : (fields.map (·.1)).Nodup) :
    field ∈ putField key value fields ↔
      field = (key, value) ∨ field ∈ fields ∧ field.1 ≠ key := by
  induction fields with
  | nil => simp [putField]
  | cons first rest ih =>
    obtain ⟨new, distinct⟩ := List.nodup_cons.1 distinct
    by_cases same : first.1 = key
    · have others : ∀ other ∈ rest, other.1 ≠ key := by
        intro other hm h
        exact new (List.mem_map.2 ⟨other, hm, h.trans same.symm⟩)
      rw [putField, if_pos same, List.mem_cons, List.mem_cons, same]
      constructor
      · rintro (here | later)
        · exact .inl here
        · exact .inr ⟨.inr later, others field later⟩
      · rintro (here | ⟨rfl | later, other⟩)
        · exact .inl here
        · exact absurd same other
        · exact .inr later
    · rw [putField, if_neg same, List.mem_cons, List.mem_cons, ih distinct]
      constructor
      · rintro (rfl | here | ⟨later, other⟩)
        · exact .inr ⟨.inl rfl, same⟩
        · exact .inl here
        · exact .inr ⟨.inr later, other⟩
      · rintro (here | ⟨first | later, other⟩)
        · exact .inr (.inl here)
        · exact .inl first
        · exact .inr (.inr ⟨later, other⟩)

theorem mergeFields_concat (fields : List (String × α)) (field : String × α) :
    mergeFields (fields ++ [field]) = putField field.1 field.2 (mergeFields fields) :=
  List.foldl_concat ..

theorem mergeFields_of_nodup (distinct : (fields.map (·.1)).Nodup) : mergeFields fields = fields := by
  induction fields using List.reverseRecOn with
  | nil => rfl
  | append_singleton fields field ih =>
    rw [List.map_append, List.map_singleton, List.nodup_append] at distinct
    obtain ⟨distinct, -, new⟩ := distinct
    rw [mergeFields_concat, ih distinct]
    exact putField_of_not_mem fun hm => new _ hm _ (List.mem_singleton_self _) rfl

/-- Each key is in the place where it comes first. -/
theorem keys_mergeFields (fields : List (String × α)) :
    (mergeFields fields).map (·.1) = (fields.map (·.1)).eraseDups := by
  induction fields using List.reverseRecOn with
  | nil => rfl
  | append_singleton fields field ih =>
    rw [mergeFields_concat, keys_putField, ih, List.map_append, List.map_singleton,
      List.eraseDups_append]
    by_cases before : field.1 ∈ fields.map (·.1) <;>
      simp [before, List.removeAll, List.eraseDups_cons]

/-- The field is among the fields, and none behind it has its key. -/
def IsLast (field : String × α) (fields : List (String × α)) : Prop :=
  ∃ before after, fields = before ++ field :: after ∧ ∀ later ∈ after, later.1 ≠ field.1

theorem isLast_concat {last : String × α} :
    IsLast field (fields ++ [last]) ↔ field = last ∨ IsLast field fields ∧ field.1 ≠ last.1 := by
  constructor
  · rintro ⟨before, after, split, others⟩
    rcases split_of_append_singleton split with ⟨more, rfl, rfl⟩ | ⟨-, same, -⟩
    · have other := others last (List.mem_append_right _ (List.mem_singleton_self _))
      exact .inr ⟨⟨before, more, rfl, fun later hm => others later (List.mem_append_left _ hm)⟩,
        other.symm⟩
    · exact .inl same
  · rintro (rfl | ⟨⟨before, after, rfl, others⟩, other⟩)
    · exact ⟨fields, [], rfl, by simp⟩
    · refine ⟨before, after ++ [last], by simp, fun later hm => ?_⟩
      rcases List.mem_append.1 hm with hm | hm
      · exact others later hm
      · exact List.mem_singleton.1 hm ▸ other.symm

/-- Each key has the value that comes last. -/
theorem mem_mergeFields_iff : field ∈ mergeFields fields ↔ IsLast field fields := by
  induction fields using List.reverseRecOn with
  | nil => simp [mergeFields, IsLast]
  | append_singleton fields last ih =>
    rw [mergeFields_concat, mem_putField_iff (nodup_keys_mergeFields fields), ih, isLast_concat]

end

end Json

namespace Yaml.Value

/-! ## Numbers -/

/-- The number as a whole one of 64 bits with a sign. -/
def signed? : Number → Option Int
  | .int value => if -2 ^ 63 ≤ value ∧ value < 2 ^ 63 then some value else none
  | .float _ => none

/-- The number as a whole one of 64 bits without a sign. -/
def unsigned? : Number → Option Int
  | .int value => if 0 ≤ value ∧ value < 2 ^ 64 then some value else none
  | .float _ => none

/-- A whole number has 64 bits, with or without a sign. -/
def Fits : Number → Prop
  | .int value => -2 ^ 63 ≤ value ∧ value < 2 ^ 64
  | .float _ => True

/-- The number tried as a whole one with a sign, as one without, and then as floating point. -/
def firstView (number : Number) : Json :=
  match (signed? number).or (unsigned? number) with
  | some value => .number (.int value)
  | none => if number.toBinary.isFinite then .number (.float number.toBinary) else .null

theorem numberJson_eq_firstView {number : Number} (fits : Fits number) :
    numberJson number = firstView number := by
  cases number with
  | float value => rfl
  | int value =>
    obtain ⟨low, high⟩ := fits
    have viewed : (signed? (.int value)).or (unsigned? (.int value)) = some value := by
      simp only [signed?, unsigned?]
      by_cases small : value < 2 ^ 63
      · rw [if_pos ⟨low, small⟩, Option.some_or]
      · rw [if_neg fun h => small h.2, if_pos ⟨by omega, high⟩, Option.none_or]
    rw [firstView, viewed, numberJson]

/-! ## JSON values read as YAML -/

mutual

/-- A JSON value as a YAML value, without tags and with strings for keys. -/
def ofJson : Json → Value
  | .null => .null
  | .bool value => .bool value
  | .number value => .number value
  | .string text => .string text
  | .array items => .sequence (ofItems items)
  | .object fields => .mapping (ofFields fields)

def ofItems : List Json → List Value
  | [] => []
  | item :: rest => ofJson item :: ofItems rest

def ofFields : List (String × Json) → List (Value × Value)
  | [] => []
  | (key, value) :: rest => (.string key, ofJson value) :: ofFields rest

end

theorem numberJson_of_finite {number : Number} (finite : number.toBinary.isFinite = true) :
    numberJson number = .number number := by
  cases number with
  | int => rfl
  | float value => exact if_pos finite

mutual

/-- A JSON value comes back from YAML: kinds of numbers and the order of fields are kept at any depth. -/
theorem toJson_ofJson : (json : Json) → json.DistinctKeys → json.Finite →
    (ofJson json).toJson = json
  | .number _, _, finite => numberJson_of_finite (Json.finite_number_iff.1 finite)
  | .array items, distinct, finite => by
    have each := itemsJson_ofItems items (Json.distinctItems_iff.1 distinct)
      (Json.finite_array_iff.1 finite)
    rw [ofJson, toJson, each]
  | .object fields, distinct, finite => by
    have each := entriesJson_ofFields fields (Json.distinctFields_iff.1 distinct.2)
      (Json.finite_object_iff.1 finite)
    rw [ofJson, toJson, each, Json.mergeFields_of_nodup distinct.1]
  | .null, _, _ => rfl
  | .bool _, _, _ => rfl
  | .string _, _, _ => rfl

theorem itemsJson_ofItems : (items : List Json) → (∀ item ∈ items, item.DistinctKeys) →
    (∀ item ∈ items, item.Finite) → itemsJson (ofItems items) = items
  | [], _, _ => rfl
  | item :: rest, distinct, finite => by
    have first := toJson_ofJson item (distinct item List.mem_cons_self)
      (finite item List.mem_cons_self)
    have later := itemsJson_ofItems rest (fun i hm => distinct i (List.mem_cons_of_mem _ hm))
      (fun i hm => finite i (List.mem_cons_of_mem _ hm))
    rw [ofItems, itemsJson, first, later]

theorem entriesJson_ofFields : (fields : List (String × Json)) →
    (∀ field ∈ fields, field.2.DistinctKeys) → (∀ field ∈ fields, field.2.Finite) →
    entriesJson (ofFields fields) = fields
  | [], _, _ => rfl
  | (key, value) :: rest, distinct, finite => by
    have first := toJson_ofJson value (distinct (key, value) List.mem_cons_self)
      (finite (key, value) List.mem_cons_self)
    have later := entriesJson_ofFields rest (fun f hm => distinct f (List.mem_cons_of_mem _ hm))
      (fun f hm => finite f (List.mem_cons_of_mem _ hm))
    rw [ofFields, entriesJson, toKey, first, later]

end

/-! ## Mappings -/

/-- A mapping becomes an object with the texts of its keys, each where it comes first, and under each
the value of the last entry that has it. -/
theorem toJson_mapping (entries : List (Value × Value)) :
    ∃ fields, (Value.mapping entries).toJson = .object fields ∧
      fields.map (·.1) = (entries.map fun entry => entry.1.toKey).eraseDups ∧
      ∀ field ∈ fields, ∃ before entry after, entries = before ++ entry :: after ∧
        field = (entry.1.toKey, entry.2.toJson) ∧ ∀ later ∈ after, later.1.toKey ≠ field.1 := by
  refine ⟨Json.mergeFields (entriesJson entries), by rw [toJson], ?_, fun field hm => ?_⟩
  · rw [Json.keys_mergeFields, entriesJson_eq_map, List.map_map]
    rfl
  · obtain ⟨before, after, split, others⟩ := Json.mem_mergeFields_iff.1 hm
    rw [entriesJson_eq_map] at split
    obtain ⟨before, behind, rfl, -, split⟩ := List.map_eq_append_iff.1 split
    obtain ⟨entry, after, rfl, here, rfl⟩ := List.map_eq_cons_iff.1 split
    refine ⟨before, entry, after, rfl, here.symm, fun later hm => ?_⟩
    exact others _ (List.mem_map_of_mem hm)

/-! ## Tags -/

/-- One tag is taken off: that of the value, or one somewhere inside of it, also within a key. -/
inductive DropsTag : Value → Value → Prop
  | here (tag : String) (value : Value) : DropsTag (.tagged tag value) value
  | tagged (tag : String) {value other : Value} (inside : DropsTag value other) :
      DropsTag (.tagged tag value) (.tagged tag other)
  | item (before after : List Value) {value other : Value} (inside : DropsTag value other) :
      DropsTag (.sequence (before ++ value :: after)) (.sequence (before ++ other :: after))
  | key (before after : List (Value × Value)) (value : Value) {key other : Value}
      (inside : DropsTag key other) :
      DropsTag (.mapping (before ++ (key, value) :: after))
        (.mapping (before ++ (other, value) :: after))
  | value (before after : List (Value × Value)) (key : Value) {value other : Value}
      (inside : DropsTag value other) :
      DropsTag (.mapping (before ++ (key, value) :: after))
        (.mapping (before ++ (key, other) :: after))

/-- Both stand for one JSON value, and as keys for one text. -/
def Alike (value other : Value) : Prop :=
  other.toJson = value.toJson ∧ other.toKey = value.toKey

theorem alike_sequence {items others : List Value} (same : itemsJson others = itemsJson items) :
    Alike (.sequence items) (.sequence others) :=
  ⟨by rw [toJson, toJson, same], by rw [toKey, toKey, same]⟩

theorem alike_mapping {entries others : List (Value × Value)}
    (same : entriesJson others = entriesJson entries) :
    Alike (.mapping entries) (.mapping others) :=
  ⟨by rw [toJson, toJson, same], by rw [toKey, toKey, same]⟩

/-- One tag makes no difference. A key that is a collection is written by way of its JSON value, so
that both are carried through the tree together. -/
theorem DropsTag.alike {value other : Value} (h : DropsTag value other) : Alike value other := by
  induction h with
  | here => exact ⟨by rw [toJson], by rw [toKey]⟩
  | tagged _ _ ih => exact ⟨by rw [toJson, toJson, ih.1], by rw [toKey, toKey, ih.2]⟩
  | item before after _ ih =>
    apply alike_sequence
    simp only [itemsJson_eq_map, List.map_append, List.map_cons, ih.1]
  | key before after _ _ ih =>
    apply alike_mapping
    simp only [entriesJson_eq_map, List.map_append, List.map_cons, ih.2]
  | value before after _ _ ih =>
    apply alike_mapping
    simp only [entriesJson_eq_map, List.map_append, List.map_cons, ih.1]

/-- Any number of tags make no difference. -/
theorem alike_of_dropsTags {value other : Value} (h : Relation.ReflTransGen DropsTag value other) :
    Alike value other := by
  induction h with
  | refl => exact ⟨rfl, rfl⟩
  | tail _ last ih => exact ⟨last.alike.1.trans ih.1, last.alike.2.trans ih.2⟩

/-! ## The laws -/

/-- A JSON value, in which no key is repeated and all numbers are finite, comes back when it is read as
YAML. A number becomes a whole one if it can be had as one, and null if it is not finite. A mapping
becomes an object with the texts of its keys, each once and where it comes first, and under each the
value of the last entry that has it. Tags make no difference, wherever they are taken off. -/
theorem toJson_laws :
    (∀ json : Json, json.DistinctKeys → json.Finite → (ofJson json).toJson = json) ∧
    (∀ number, Fits number → (Value.number number).toJson = firstView number) ∧
    (∀ entries : List (Value × Value), ∃ fields, (Value.mapping entries).toJson = .object fields ∧
      fields.map (·.1) = (entries.map fun entry => entry.1.toKey).eraseDups ∧
      ∀ field ∈ fields, ∃ before entry after, entries = before ++ entry :: after ∧
        field = (entry.1.toKey, entry.2.toJson) ∧ ∀ later ∈ after, later.1.toKey ≠ field.1) ∧
    ∀ value other, Relation.ReflTransGen DropsTag value other →
      other.toJson = value.toJson ∧ other.toKey = value.toKey :=
  ⟨toJson_ofJson, fun _ => numberJson_eq_firstView, toJson_mapping, fun _ _ => alike_of_dropsTags⟩

/-- Fields that are not in the order of their keys, and numbers of both kinds. -/
def mixedJson : Json :=
  .object [("b", .array [.number (.int (-7)), .number (.float (.finite true .zero)), .null]),
    ("a", .object [])]

/-- A mapping with a tag, a key with one, and one within that key. The other key has the same text. -/
def taggedMapping : Value :=
  .tagged "!pair" (.mapping [
    (.tagged "!key" (.sequence [.tagged "!one" (.number (.int 1))]), .null),
    (.string "[1]", .bool true)])

/-- The mapping without its tags. -/
def bareMapping : Value :=
  .mapping [(.sequence [.number (.int 1)], .null), (.string "[1]", .bool true)]

theorem toJson_laws_mixedJson :
    mixedJson.DistinctKeys ∧ mixedJson.Finite ∧ (ofJson mixedJson).toJson = mixedJson ∧
    Fits (.int (2 ^ 63)) ∧ (Value.number (.int (2 ^ 63))).toJson = firstView (.int (2 ^ 63)) ∧
    Relation.ReflTransGen DropsTag taggedMapping bareMapping ∧
    bareMapping.toJson = taggedMapping.toJson ∧ bareMapping.toKey = taggedMapping.toKey := by
  obtain ⟨back, viewed, -, untagged⟩ := toJson_laws
  have distinct : mixedJson.DistinctKeys := by
    simp [mixedJson, Json.DistinctKeys, Json.DistinctFields, Json.DistinctItems]
  have whole : (Number.int (-7)).toBinary.isFinite = true := Binary64.isFinite_int (by decide)
  have zero : (Number.float (.finite true .zero)).toBinary.isFinite = true := rfl
  have finite : mixedJson.Finite := by simp [mixedJson, whole, zero]
  have fits : Fits (.int (2 ^ 63)) := ⟨by decide, by decide⟩
  have dropped : Relation.ReflTransGen DropsTag taggedMapping bareMapping := by
    refine .head (.here _ _) (.head (.key [] _ _ (.here _ _)) (.single (.key [] _ _ ?_)))
    exact .item [] [] (.here _ _)
  exact ⟨distinct, finite, back _ distinct finite, fits, viewed _ fits, dropped,
    untagged _ _ dropped⟩

end Yaml.Value

end ApiTypes
