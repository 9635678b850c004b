import ApiTypes.Json.Printer

/-!
YAML values, and the JSON values they stand for. Tags make no difference there, keys become text,
and numbers that JSON does not have become null.
-/

namespace ApiTypes.Yaml

inductive Value
  | null
  | bool (value : Bool)
  | number (value : Number)
  | string (value : String)
  | sequence (items : List Value)
  | mapping (entries : List (Value × Value))
  | tagged (tag : String) (value : Value)
  deriving Repr

namespace Value

/-! ### Equality -/

/-- Equality of numbers within mappings: what is not a number equals itself. -/
def sameNumber : Number → Number → Bool
  | .int a, .int b => a == b
  | .float a, .float b => a.same b || (a == .nan && b == .nan)
  | _, _ => false

/-- The name of a tag, without the mark a name may start with. -/
def tagName (tag : String) : List Char :=
  match tag.toList with
  | '!' :: c :: rest => c :: rest
  | name => name

mutual

/-- Equality of keys. The order of entries in a mapping makes no difference. -/
def same : Value → Value → Bool
  | .null, .null => true
  | .bool a, .bool b => a == b
  | .number a, .number b => sameNumber a b
  | .string a, .string b => a == b
  | .sequence a, .sequence b => sameItems a b
  | .mapping a, .mapping b => a.length == b.length && entriesWithin a b
  | .tagged tag a, .tagged tag' b => tagName tag == tagName tag' && a.same b
  | _, _ => false

def sameItems : List Value → List Value → Bool
  | [], [] => true
  | a :: as, b :: bs => a.same b && sameItems as bs
  | _, _ => false

/-- Whether every entry has its equal among others. -/
def entriesWithin : List (Value × Value) → List (Value × Value) → Bool
  | [], _ => true
  | (key, value) :: rest, others =>
    others.any (fun other => key.same other.1 && value.same other.2) && entriesWithin rest others

end

/-! ### JSON -/

/-- A number as JSON holds it. -/
def numberJson : Number → Json
  | .int value => .number (.int value)
  | .float value => if value.isFinite then .number (.float value) else .null

/-- Numbers in keys are written as in JSON, but with no sign before a positive exponent. -/
def keyFormat : Binary64.NumberFormat :=
  { Number.jsonFormat with
    exponentPlus := ""
    infinity := ".inf"
    negativeInfinity := "-.inf"
    notANumber := ".nan" }

/-- The text of a number that is a key. -/
def numberKey : Number → String
  | .int value => toString value
  | .float value => value.toText keyFormat

mutual

/-- The JSON value of a YAML value. Of entries whose keys have one text the last counts, in the
place of the first. -/
def toJson : Value → Json
  | .null => .null
  | .bool value => .bool value
  | .number value => numberJson value
  | .string text => .string text
  | .sequence items => .array (itemsJson items)
  | .mapping entries => .object (Json.mergeFields (entriesJson entries))
  | .tagged _ value => value.toJson

def itemsJson : List Value → List Json
  | [] => []
  | item :: rest => item.toJson :: itemsJson rest

def entriesJson : List (Value × Value) → List (String × Json)
  | [] => []
  | (key, value) :: rest => (key.toKey, value.toJson) :: entriesJson rest

/-- The text of a key. One that is a collection is its JSON text. -/
def toKey : Value → String
  | .string text => text
  | .number value => numberKey value
  | .bool value => if value then "true" else "false"
  | .null => "null"
  | .tagged _ value => value.toKey
  | .sequence items => (Json.array (itemsJson items)).toText
  | .mapping entries => (Json.object (Json.mergeFields (entriesJson entries))).toText

end

theorem itemsJson_eq_map (items : List Value) : itemsJson items = items.map toJson := by
  induction items with
  | nil => rfl
  | cons item rest ih => rw [itemsJson, ih, List.map_cons]

theorem entriesJson_eq_map (entries : List (Value × Value)) :
    entriesJson entries = entries.map fun entry => (entry.1.toKey, entry.2.toJson) := by
  induction entries with
  | nil => rfl
  | cons entry rest ih => rw [entriesJson, ih, List.map_cons]

end Value

end ApiTypes.Yaml
