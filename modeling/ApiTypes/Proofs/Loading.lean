import ApiTypes.Command.Load
import ApiTypes.Proofs.Binary64.Ratio
import ApiTypes.Proofs.Finite
import Mathlib.Algebra.Group.Nat.Defs

/-!
# Numbers of loaded documents

No text is read as a document with an infinity, or with what is not a number, in it. A JSON text
with a number that is too large is refused, and what YAML has beyond JSON becomes null on the way:

* `Json.gives_value`: whatever a reader of JSON values gives has finite numbers;
* `Yaml.Value.read_composes`: so has the JSON value of whatever a reader of YAML nodes gives;
* `finite_of_parse`: so has every document that a text is read as.
-/

namespace ApiTypes

namespace Binary64

/-! ## Rounding -/

/-- A number with a mantissa of 53 bits. -/
def ofMantissa (mantissa power : Nat) (below : mantissa < 2 ^ 53) (normal : 2 ^ 52 ≤ mantissa)
    (h : power ≤ 2045) : Magnitude :=
  ⟨mantissa, power, below, .inl normal, h⟩

theorem units_ofMantissa {mantissa power : Nat} (below : mantissa < 2 ^ 53)
    (normal : 2 ^ 52 ≤ mantissa) (h : power ≤ 2045) :
    (ofMantissa mantissa power below normal h).units = mantissa * 2 ^ power :=
  rfl

theorem isFinite_of_whole (negative : Bool) {whole : Nat} (h : whole ≤ 10 ^ 308) :
    (ofRatio negative whole 1).isFinite = true := by
  have largest : 10 ^ 308 ≤ (2 ^ 53 - 1) * 2 ^ 971 := by decide +kernel
  apply isFinite_ofRatio negative
    (ofMantissa (2 ^ 53 - 1) (971 + 1074) (by decide) (by decide) (by decide)) (by decide)
  rw [Nat.mul_one, units_ofMantissa]
  calc whole * one ≤ (2 ^ 53 - 1) * 2 ^ 971 * one :=
        Nat.mul_le_mul_right _ (Nat.le_trans h largest)
    _ = (2 ^ 53 - 1) * 2 ^ (971 + 1074) := by
        rw [one_eq, Nat.mul_assoc, Nat.pow_add 2 971 1074]

theorem isFinite_int {value : Int} (h : value.natAbs ≤ 2 ^ 64) :
    (Number.int value).toBinary.isFinite = true :=
  isFinite_of_whole _ (Nat.le_trans h (by decide))

/-- A power of ten is not less than one. -/
theorem one_le_tenPow {exponent : Nat} {sign : Bool} {power : Magnitude}
    (h : tenPow exponent = .finite sign power) : one ≤ power.units := by
  have whole : ofRatio false (1 * 10 ^ exponent) 1 = .finite sign power :=
    (ofDecimal_whole false (by decide) exponent).symm.trans h
  have unit : (ofMantissa (2 ^ 52) 1022 (by decide) (by decide) (by decide)).units = one := by
    rw [units_ofMantissa, one_eq, ← Nat.pow_add]
  rw [← unit]
  apply units_le_of_ofRatio (by decide) _ whole
  rw [unit, Nat.mul_one, Nat.one_mul]
  exact Nat.le_mul_of_pos_left _ (Nat.pow_pos (by decide))

theorem isFinite_divMagnitude (negative : Bool) (x : Magnitude) {y : Magnitude}
    (h : one ≤ y.units) : (divMagnitude negative x y).isFinite = true := by
  have positive : 0 < y.units := Nat.lt_of_lt_of_le one_pos h
  unfold divMagnitude
  rw [if_neg (Nat.ne_of_gt positive)]
  apply isFinite_ofRatio negative x positive
  exact Nat.mul_le_mul_left _ h

end Binary64

namespace Json

/-! ## JSON text -/

/-- Whatever the reader gives, from whatever text, has the property. -/
def Gives {α : Type} (reader : List Char → Read α) (property : α → Prop) : Prop :=
  ∀ text value rest, reader text = some (value, rest) → property value

theorem isFinite_divTenPow {x : Binary64} (hx : x.isFinite = true) (exponent : Nat) :
    (divTenPow x exponent).isFinite = true := by
  unfold divTenPow
  split
  · rename_i power
    exact Binary64.isFinite_divMagnitude _ _ (Binary64.one_le_tenPow power)
  · exact hx

theorem isFinite_scaleDown (x : Binary64) (exponent : Nat) (hx : x.isFinite = true) :
    (scaleDown x exponent).isFinite = true := by
  fun_induction scaleDown x exponent with
  | case1 x exponent _ => exact isFinite_divTenPow hx exponent
  | case2 x exponent _ _ => exact hx
  | case3 x exponent _ _ ih => exact ih (isFinite_divTenPow hx 308)

theorem isFinite_of_scaleUp {x value : Binary64} {exponent : Nat} (hx : x.isFinite = true)
    (h : scaleUp? x exponent = some value) : value.isFinite = true := by
  unfold scaleUp? at h
  split at h
  · cases h
    exact hx
  · split at h
    · cases h
    · exact (Option.filter_eq_some_iff.1 h).2

theorem isFinite_of_floatOf {negative : Bool} {significand : Nat} {exponent : Int}
    {value : Binary64} (hs : significand ≤ maxSignificand)
    (h : floatOf? negative significand exponent = some value) : value.isFinite = true := by
  have start : (Binary64.ofRatio negative significand 1).isFinite = true :=
    Binary64.isFinite_of_whole negative (Nat.le_trans hs (by decide))
  unfold floatOf? at h
  split at h
  · exact isFinite_of_scaleUp start h
  · cases h
    exact isFinite_scaleDown _ _ start

theorem takeDigits_le (significand taken : Nat) (text : List Char)
    (h : significand ≤ maxSignificand) :
    (takeDigits significand taken text).1 ≤ maxSignificand := by
  fun_induction takeDigits significand taken text with
  | case1 significand taken c rest next fits ih =>
    simp only [Bool.and_eq_true, decide_eq_true_eq] at fits
    exact ih fits.2
  | case2 significand taken c rest next _ => exact h
  | case3 significand taken => exact h

theorem finite_wholeNumber (negative : Bool) {significand : Nat} (h : significand ≤ maxSignificand) :
    (wholeNumber negative significand).toBinary.isFinite = true := by
  have small : significand ≤ 2 ^ 64 := Nat.le_trans h (by decide)
  unfold wholeNumber
  split
  · exact Binary64.isFinite_int small
  · split
    · exact Binary64.isFinite_of_whole true (Nat.le_trans small (by decide))
    · apply Binary64.isFinite_int
      rw [Int.natAbs_neg]
      exact small

theorem isFinite_of_exponent {negative : Bool} {significand : Nat} {exponent : Int}
    {after rest : List Char} {value : Number} (hs : significand ≤ maxSignificand)
    (h : ((readExponent after).bind fun (power, rest) =>
      (floatOf? negative significand (exponent + power)).map fun value =>
        (Number.float value, rest)) = some (value, rest)) : value.toBinary.isFinite = true := by
  obtain ⟨power, -, h⟩ := Option.bind_eq_some_iff.1 h
  obtain ⟨float, hf, same⟩ := Option.map_eq_some_iff.1 h
  cases same
  exact isFinite_of_floatOf hs hf

theorem gives_scaled (negative : Bool) {significand : Nat} (hs : significand ≤ maxSignificand)
    (exponent : Int) :
    Gives (readScaled negative significand exponent) (·.toBinary.isFinite = true) := by
  intro text value rest h
  unfold readScaled at h
  split at h
  · exact isFinite_of_exponent hs h
  · exact isFinite_of_exponent hs h
  · obtain ⟨float, hf, same⟩ := Option.map_eq_some_iff.1 h
    cases same
    exact isFinite_of_floatOf hs hf

theorem gives_fraction (negative : Bool) {significand : Nat} (hs : significand ≤ maxSignificand)
    (dropped : Nat) :
    Gives (readFraction negative significand dropped) (·.toBinary.isFinite = true) := by
  intro text value rest h
  unfold readFraction at h
  split at h
  · rename_i c rest
    split at h
    · have more := takeDigits_le significand 0 (c :: rest) hs
      exact gives_scaled negative more _ _ _ _ h
    · cases h
  · cases h
  · exact gives_scaled negative hs _ _ _ _ h
  · exact gives_scaled negative hs _ _ _ _ h
  · split at h
    · cases h
      exact finite_wholeNumber negative hs
    · exact gives_scaled negative hs _ _ _ _ h

theorem gives_number (negative : Bool) :
    Gives (readNumber negative) (·.toBinary.isFinite = true) := by
  intro text value rest h
  have bounded := takeDigits_le 0 0 text (Nat.zero_le _)
  unfold readNumber at h
  dsimp only at h
  split at h
  · cases h
  · split at h
    · cases h
    · exact gives_fraction negative bounded _ _ _ _ h

section
variable {α : Type} {entry : List Char → Read α} {close : Char} {property : α → Prop}

/-- Readers of groups give entries that the reader of one entry gives. -/
theorem Gives.entries (he : Gives entry property) :
    Gives (readEntries entry close) (∀ value ∈ ·, property value) := by
  intro text
  fun_induction readEntries entry close text with
  | case1 text _ => intro values rest h; cases h
  | case2 text value rest hv _ => intro values rest h; cases h
  | case3 text value rest hv c after hc _ =>
    intro values rest h
    cases h
    intro other hm
    rw [List.mem_singleton.1 hm]
    exact he _ _ _ hv
  | case4 text value rest hv c after hc _ _ _ ih =>
    intro values rest h
    obtain ⟨⟨later, final⟩, hl, same⟩ := Option.map_eq_some_iff.1 h
    cases same
    intro other hm
    rcases List.mem_cons.1 hm with rfl | hm
    · exact he _ _ _ hv
    · exact ih _ _ hl other hm
  | case5 => intro values rest h; cases h
  | case6 => intro values rest h; cases h

theorem Gives.group (he : Gives entry property) :
    Gives (readGroup entry close) (∀ value ∈ ·, property value) := by
  intro text values rest h
  unfold readGroup at h
  split at h
  · split at h
    · cases h
      intro value hm
      cases hm
    · exact he.entries _ _ _ h
  · cases h

end

theorem Gives.field {value : List Char → Read Json} {property : Json → Prop}
    (hv : Gives value property) : Gives (readField value) (property ·.2) := by
  intro text field rest h
  unfold readField at h
  split at h
  · obtain ⟨⟨key, after⟩, -, h⟩ := Option.bind_eq_some_iff.1 h
    dsimp only at h
    split at h
    · obtain ⟨⟨node, final⟩, hn, same⟩ := Option.map_eq_some_iff.1 h
      cases same
      exact hv _ _ _ hn
    · cases h
  · cases h

theorem finite_of_readNumber {negative : Bool} {digits rest : List Char} {value : Json}
    (h : (readNumber negative digits).map (fun (value, rest) => (Json.number value, rest)) =
      some (value, rest)) : value.Finite := by
  obtain ⟨number, hn, same⟩ := Option.map_eq_some_iff.1 h
  cases same
  exact .number (gives_number _ _ _ _ hn)

/-- Values read from a text have finite numbers, by recursion on how deep the reader may go. -/
theorem gives_value (depth : Nat) : Gives (readValue depth) Json.Finite := by
  intro text value rest h
  unfold readValue at h
  split at h
  · cases h
    exact .null
  · cases h
    exact .bool true
  · cases h
    exact .bool false
  · obtain ⟨string, -, same⟩ := Option.map_eq_some_iff.1 h
    cases same
    exact .string _
  · exact finite_of_readNumber h
  · cases depth with
    | zero => cases h
    | succ depth =>
      obtain ⟨⟨items, after⟩, hi, same⟩ := Option.map_eq_some_iff.1 h
      cases same
      exact .array ((gives_value depth).group _ _ _ hi)
  · cases depth with
    | zero => cases h
    | succ depth =>
      obtain ⟨⟨fields, after⟩, hf, same⟩ := Option.map_eq_some_iff.1 h
      cases same
      exact .object ((gives_value depth).field.group _ _ _ hf)
  · exact finite_of_readNumber h

theorem finite_of_parse {text : String} {value : Json} (h : parse? text = some value) :
    value.Finite := by
  unfold parse? at h
  split at h
  · rename_i read rest hr
    split at h
    · cases h
      exact gives_value _ _ _ _ hr
    · cases h
  · cases h

end Json

namespace Yaml

/-! ## YAML text -/

namespace Scalar

theorem fits_bounded {text : List Char} {value : Int} (h : whole text = .fits value) :
    value.natAbs ≤ 2 ^ 64 := by
  unfold whole at h
  simp only [Nat.pow_eq] at h
  split at h
  · cases h
  · split at h
    · split at h
      · cases h
        omega
      · split at h <;> cases h
    · split at h
      · cases h
        omega
      · split at h <;> cases h

theorem finite_numberJson_float (value : Binary64) : (Value.numberJson (.float value)).Finite := by
  unfold Value.numberJson
  dsimp only
  split
  · rename_i finite
    exact .number finite
  · exact .null

theorem finite_plain {text : String} {value : Value} (h : plain? text = some value) :
    value.toJson.Finite := by
  unfold plain? at h
  split at h
  · cases h
    exact .null
  · split at h
    · cases h
      exact .bool _
    · split at h
      · rename_i fits
        cases h
        exact .number (Binary64.isFinite_int (fits_bounded fits))
      · cases h
      · split at h
        · cases h
          exact .string _
        · split at h
          · cases h
            exact finite_numberJson_float _
          · cases h
            exact .string _

theorem finite_tagged {tag text : String} {isPlain : Bool} {value : Value}
    (h : tagged? tag text isPlain = some value) : value.toJson.Finite := by
  unfold tagged? at h
  split at h
  · obtain ⟨truth, -, rfl⟩ := Option.map_eq_some_iff.1 h
    exact .bool truth
  · split at h
    · rename_i fits
      cases h
      exact .number (Binary64.isFinite_int (fits_bounded fits))
    · cases h
  · obtain ⟨number, -, rfl⟩ := Option.map_eq_some_iff.1 h
    exact finite_numberJson_float number
  · split at h
    · cases h
      exact .null
    · cases h
  · split at h
    · exact finite_plain h
    · cases h
      exact .string text

theorem finite_value {tag : Option String} {text : String} {isPlain : Bool} {value : Value}
    (h : value? tag text isPlain = some value) : value.toJson.Finite := by
  unfold value? at h
  split at h
  · exact finite_tagged h
  · split at h
    · exact finite_plain h
    · cases h
      exact .string text

end Scalar

namespace Value

theorem finite_sequence {items : List Value} (h : ∀ item ∈ items, item.toJson.Finite) :
    (Value.sequence items).toJson.Finite := by
  refine .array fun json hm => ?_
  rw [itemsJson_eq_map] at hm
  obtain ⟨item, hi, rfl⟩ := List.mem_map.1 hm
  exact h item hi

theorem finite_mapping {entries : List (Value × Value)}
    (h : ∀ entry ∈ entries, entry.2.toJson.Finite) :
    (Value.mapping entries).toJson.Finite := by
  refine .object fun field hm => ?_
  obtain ⟨source, hs, same⟩ := Json.mem_mergeFields hm
  rw [entriesJson_eq_map] at hs
  obtain ⟨entry, he, rfl⟩ := List.mem_map.1 hs
  exact same ▸ h entry he

theorem toJson_withTag (tag : Option String) (value : Value) :
    (withTag tag value).toJson = value.toJson := by
  unfold withTag
  split
  · split <;> rfl
  · rfl

/-- Whatever the action gives, after whatever number of aliases, has the property. -/
def Composes {α : Type} (action : Composing α) (property : α → Prop) : Prop :=
  ∀ count value after, action.run count = some (value, after) → property value

section
variable {α β : Type} {mid : α → Prop} {property : β → Prop}

theorem Composes.pure {value : β} (h : property value) :
    Composes (Pure.pure value : Composing β) property := by
  intro count given after hr
  cases hr
  exact h

theorem Composes.failure : Composes (Alternative.failure : Composing β) property := by
  intro count given after hr
  cases hr

theorem Composes.bind {action : Composing α} {next : α → Composing β} (ha : Composes action mid)
    (hn : ∀ a, mid a → Composes (next a) property) : Composes (action >>= next) property := by
  intro count given after hr
  obtain ⟨⟨a, between⟩, hm, hr⟩ := Option.bind_eq_some_iff.1 hr
  exact hn a (ha _ _ _ hm) _ _ _ hr

end

theorem readItems_composes {read : Node Nat → Composing Value} {property : Value → Prop}
    (h : ∀ node, Composes (read node) property) (items : List (Node Nat)) :
    Composes (readItems read items) (∀ value ∈ ·, property value) := by
  induction items with
  | nil => exact .pure (by simp)
  | cons item rest ih =>
    exact (h item).bind fun first hf => ih.bind fun later hl =>
      .pure (List.forall_mem_cons.2 ⟨hf, hl⟩)

theorem readEntries_composes {readKey readValue : Node Nat → Composing Value}
    {property : Value → Prop} (h : ∀ node, Composes (readValue node) property)
    (before : List Value) (entries : List (Node Nat × Node Nat)) :
    Composes (readEntries readKey readValue before entries)
      (∀ entry ∈ ·, property entry.2) := by
  induction entries generalizing before with
  | nil => exact .pure (by simp)
  | cons entry rest ih =>
    have keys : Composes (readKey entry.1) fun _ => True := fun _ _ _ _ => trivial
    refine keys.bind fun key _ => ?_
    split
    · exact .failure
    · exact (h entry.2).bind fun first hf => (ih _).bind fun later hl =>
        .pure (List.forall_mem_cons.2 ⟨hf, hl⟩)

theorem readContent_composes {inner : Option (Bool → Node Nat → Composing Value)}
    (h : ∀ read ∈ inner, ∀ tags node, Composes (read tags node) (·.toJson.Finite))
    (withTags : Bool) (node : Node Nat) :
    Composes (readContent inner withTags node) (·.toJson.Finite) := by
  have tagged {tag : Option String} {value : Value} (hv : value.toJson.Finite) :
      Composes (Pure.pure (withTag tag value)) (·.toJson.Finite) := by
    apply Composes.pure
    rw [toJson_withTag]
    exact hv
  unfold readContent
  cases node with
  | scalar properties text isPlain =>
    dsimp only
    split
    · rename_i value hv
      exact tagged (Scalar.finite_value hv)
    · exact .failure
  | sequence properties items =>
    cases inner with
    | none => exact .failure
    | some read =>
      exact (readItems_composes (h read rfl true) items).bind fun values hv =>
        tagged (finite_sequence hv)
  | mapping properties entries =>
    cases inner with
    | none => exact .failure
    | some read =>
      exact (readEntries_composes (h read rfl true) [] entries).bind fun values hv =>
        tagged (finite_mapping hv)
  | «alias» number => exact .failure

/-- Values of nodes have finite numbers as JSON, by induction on how deep the reader may go. -/
theorem read_composes (sources : Sources) (depth : Nat) (withTags : Bool) (node : Node Nat) :
    Composes (read sources depth withTags node) (·.toJson.Finite) := by
  induction depth generalizing withTags node with
  | zero =>
    unfold read
    dsimp only
    split
    · rename_i anchor
      have target : Composes (follow sources anchor) fun _ => True := fun _ _ _ _ => trivial
      exact target.bind fun node _ => readContent_composes (by simp) true node
    · exact readContent_composes (by simp) withTags _
  | succ depth ih =>
    have inner : ∀ reader ∈ some (read sources depth), ∀ tags node,
        Composes (reader tags node) (·.toJson.Finite) := by
      intro reader hr
      cases hr
      exact ih
    unfold read
    dsimp only
    split
    · rename_i anchor
      have target : Composes (follow sources anchor) fun _ => True := fun _ _ _ _ => trivial
      exact target.bind fun node _ => readContent_composes inner true node
    · exact readContent_composes inner withTags _

theorem finite_of_parse {text : String} {value : Value} (h : parse? text = some value) :
    value.toJson.Finite := by
  obtain ⟨tokens, -, h⟩ := Option.bind_eq_some_iff.1 h
  obtain ⟨tree, -, h⟩ := Option.bind_eq_some_iff.1 h
  obtain ⟨⟨node, anchors⟩, -, h⟩ := Option.bind_eq_some_iff.1 h
  obtain ⟨⟨read, count⟩, hr, h⟩ := Option.bind_eq_some_iff.1 h
  cases h
  exact read_composes _ _ _ _ _ _ _ hr

end Value

end Yaml

/-- A text that is read as a document is read as one with finite numbers. -/
theorem finite_of_parse {format : TextFormat} {text : String} {document : Document}
    (h : format.parse? text = some document) : document.root.Finite := by
  have json {document : Document} (h : TextFormat.parseJson? text = some document) :
      document.root.Finite := by
    obtain ⟨value, hv, rfl⟩ := Option.map_eq_some_iff.1 h
    exact Json.Finite.merged _ (Json.finite_of_parse hv)
  have yaml {document : Document} (h : TextFormat.parseYaml? text = some document) :
      document.root.Finite := by
    obtain ⟨value, hv, rfl⟩ := Option.map_eq_some_iff.1 h
    exact Json.Finite.merged _ (Yaml.Value.finite_of_parse hv)
  cases format with
  | json => exact json h
  | yaml => exact yaml h
  | either =>
    rcases Option.or_eq_some_iff.1 ((Option.or_eq_orElse ..).trans h) with h | ⟨-, h⟩
    · exact json h
    · exact yaml h

end ApiTypes
