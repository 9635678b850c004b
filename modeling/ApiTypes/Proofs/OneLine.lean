import ApiTypes.Proofs.Name
import ApiTypes.Proofs.Reading.Number
import ApiTypes.Proofs.Typing.Preserved
import ApiTypes.Schema.Documentation

/-!
# Texts on one line

Where a text has no line feed it stays on its line (`OneLine`). JSON text does, whatever the value
(`oneLine_toText`), and so does every line of a description. So of what a schema says about itself,
only the title and the texts of `format` and `pattern`, which stand as they are written, can break a
line (`oneLined_doc?_iff`).
-/

namespace ApiTypes

open Text

/-- No line ends within the text. -/
def OneLine (text : String) : Prop :=
  '\n' ∉ text.toList

instance (text : String) : Decidable (OneLine text) :=
  inferInstanceAs (Decidable (_ ∉ _))

theorem oneLine_append {a b : String} : OneLine (a ++ b) ↔ OneLine a ∧ OneLine b := by
  simp [OneLine, not_or]

theorem oneLine_ofList {text : List Char} : OneLine (String.ofList text) ↔ '\n' ∉ text := by
  rw [OneLine, String.toList_ofList]

theorem oneLine_intercalate {separator : String} (hs : OneLine separator) {texts : List String}
    (h : ∀ text ∈ texts, OneLine text) : OneLine (separator.intercalate texts) := by
  induction texts with
  | nil => exact List.not_mem_nil
  | cons text rest ih =>
    have first := h text List.mem_cons_self
    have later := ih fun t hm => h t (List.mem_cons_of_mem _ hm)
    cases rest with
    | nil => simpa using first
    | cons next others =>
      rw [String.intercalate_cons_cons, oneLine_append, oneLine_append]
      exact ⟨⟨first, hs⟩, later⟩

theorem newline_not_mem_digits {digits : List Char} (h : ∀ c ∈ digits, c.isDigit = true) :
    '\n' ∉ digits := by
  intro hm
  exact absurd (h _ hm) (by decide)

/-! ## Numbers -/

theorem oneLine_toString (n : Nat) : OneLine (toString n) := by
  rw [Nat.toString_eq_ofList_toDigits, oneLine_ofList]
  exact newline_not_mem_digits fun _ hc => Nat.isDigit_of_mem_toDigits (by decide) (by decide) hc

theorem oneLine_toString_int (n : Int) : OneLine (toString n) := by
  cases n with
  | ofNat n => exact oneLine_toString n
  | negSucc n =>
    change OneLine ("-" ++ toString (n + 1))
    exact oneLine_append.2 ⟨by decide, oneLine_toString _⟩

namespace Binary64

/-- The marks of a format stay on the line. -/
structure NumberFormat.OneLined (format : NumberFormat) : Prop where
  whole : OneLine format.wholeMark
  plus : OneLine format.exponentPlus
  infinity : OneLine format.infinity
  negativeInfinity : OneLine format.negativeInfinity
  notANumber : OneLine format.notANumber

section
variable {figures : List Char} (digits : ∀ c ∈ figures, c.isDigit = true) (point : Int)
include digits

theorem oneLine_positionalText {wholeMark : String} (hw : OneLine wholeMark) :
    OneLine (positionalText wholeMark figures point) := by
  have free := newline_not_mem_digits digits
  unfold positionalText
  split
  · rw [oneLine_ofList]
    simp [free]
  · split
    · refine oneLine_append.2 ⟨oneLine_ofList.2 ?_, hw⟩
      simp [free]
    · have before : '\n' ∉ figures.take point.toNat := fun hm => free (List.mem_of_mem_take hm)
      have behind : '\n' ∉ figures.drop point.toNat := fun hm => free (List.mem_of_mem_drop hm)
      rw [oneLine_ofList]
      simp [before, behind]

theorem oneLine_exponentText {exponentPlus : String} (hp : OneLine exponentPlus) :
    OneLine (exponentText exponentPlus figures point) := by
  have free := newline_not_mem_digits digits
  have exponent := oneLine_toString_int (point - 1)
  have tail : OneLine (if point - 1 < 0 then toString (point - 1)
      else exponentPlus ++ toString (point - 1)) := by
    split
    · exact exponent
    · exact oneLine_append.2 ⟨hp, exponent⟩
  unfold exponentText
  dsimp only
  split
  · refine oneLine_append.2 ⟨oneLine_append.2 ⟨oneLine_ofList.2 free, by decide⟩, tail⟩
  · refine oneLine_append.2 ⟨oneLine_append.2 ⟨oneLine_ofList.2 ?_, by decide⟩, tail⟩
    simp only [List.mem_cons, not_or] at free ⊢
    exact ⟨free.1, by decide, free.2⟩
  · decide

end

theorem oneLine_toText {format : NumberFormat} (h : format.OneLined) (x : Binary64) :
    OneLine (x.toText format) := by
  cases x with
  | nan => exact h.notANumber
  | infinite negative =>
    cases negative
    · exact h.infinity
    · exact h.negativeInfinity
  | finite negative x =>
    have magnitude : OneLine (magnitudeText format x) := by
      unfold magnitudeText
      split
      · exact oneLine_append.2 ⟨by decide, h.whole⟩
      · have digits := (x.shortest format.tie).isDigit_figures
        dsimp only
        split
        · exact oneLine_positionalText digits _ h.whole
        · exact oneLine_exponentText digits _ h.plus
    refine oneLine_append.2 ⟨?_, magnitude⟩
    cases negative <;> decide

end Binary64

theorem Number.oneLine_toText (number : Number) : OneLine number.toText := by
  cases number with
  | int value => exact oneLine_toString_int value
  | float value =>
    exact Binary64.oneLine_toText
      ⟨by decide, by decide, by decide, by decide, by decide⟩ value

/-! ## JSON -/

namespace Json

theorem newline_not_mem_hex4 (n : Nat) : '\n' ∉ hex4 n := by
  have digit : ∀ k < 16, hexDigit k ≠ '\n' := by decide
  have each (k : Nat) : '\n' ≠ hexDigit (k % 16) := (digit _ (Nat.mod_lt _ (by decide))).symm
  simp [hex4, each]

theorem newline_not_mem_escapeChar (c : Char) : '\n' ∉ escapeChar c := by
  unfold escapeChar
  split
  case h_8 newline _ _ =>
    split
    · simp [newline_not_mem_hex4]
    · exact fun hm => newline (List.mem_singleton.1 hm).symm
  all_goals decide

theorem oneLine_stringText (text : String) : OneLine (stringText text) := by
  refine oneLine_append.2 ⟨oneLine_append.2 ⟨by decide, oneLine_ofList.2 fun hm => ?_⟩, by decide⟩
  obtain ⟨c, -, hc⟩ := List.mem_flatMap.1 hm
  exact newline_not_mem_escapeChar c hc

mutual

/-- JSON text stays on its line. -/
theorem oneLine_toText : (value : Json) → OneLine value.toText
  | .null => by rw [toText]; decide
  | .bool value => by
    rw [toText]
    cases value <;> decide
  | .number value => by
    rw [toText]
    exact value.oneLine_toText
  | .string text => by
    rw [toText]
    exact oneLine_stringText text
  | .array items => by
    rw [toText]
    have inside := oneLine_intercalate (by decide : OneLine ",") (oneLine_itemTexts items)
    exact oneLine_append.2 ⟨oneLine_append.2 ⟨by decide, inside⟩, by decide⟩
  | .object fields => by
    rw [toText]
    have inside := oneLine_intercalate (by decide : OneLine ",") (oneLine_fieldTexts fields)
    exact oneLine_append.2 ⟨oneLine_append.2 ⟨by decide, inside⟩, by decide⟩

theorem oneLine_itemTexts : (items : List Json) → ∀ text ∈ itemTexts items, OneLine text
  | [], _, hm => by cases hm
  | item :: rest, text, hm => by
    rcases List.mem_cons.1 (by simpa only [itemTexts] using hm) with rfl | hm
    · exact oneLine_toText item
    · exact oneLine_itemTexts rest text hm

theorem oneLine_fieldTexts : (fields : List (String × Json)) →
    ∀ text ∈ fieldTexts fields, OneLine text
  | [], _, hm => by cases hm
  | (key, value) :: rest, text, hm => by
    rcases List.mem_cons.1 (by simpa only [fieldTexts] using hm) with rfl | hm
    · have named := oneLine_append.2 ⟨oneLine_stringText key, (by decide : OneLine ":")⟩
      exact oneLine_append.2 ⟨named, oneLine_toText value⟩
    · exact oneLine_fieldTexts rest text hm

end

end Json

theorem Json.text?_eq_some_iff {node : Json} {key text : String} :
    node.text? key = some text ↔ node.get? key = some (.string text) := by
  unfold text?
  cases node.get? key with
  | none => simp
  | some value => cases value <;> simp [string?]

/-! ## Descriptions -/

theorem oneLine_of_mem_proseLines {text line : String} (h : line ∈ proseLines text) :
    OneLine line := by
  obtain ⟨piece, hp, rfl⟩ := List.mem_map.1 h
  have listed : piece ∈ pieces (· == '\n') text.toList := by
    unfold lines at hp
    dsimp only at hp
    split at hp
    · exact List.dropLast_subset _ hp
    · exact hp
  rw [oneLine_ofList]
  intro hm
  have kept : '\n' ∈ piece := by
    simp only [trimEnd, List.mem_reverse] at hm
    exact List.mem_reverse.1 ((List.dropWhile_sublist _).mem hm)
  exact absurd (mem_pieces listed kept) (by decide)

/-! ## What a schema says about itself -/

/-- Every entry stays on its line. -/
structure Doc.OneLined (doc : Doc) : Prop where
  summary : ∀ line ∈ doc.summary, OneLine line
  tags : ∀ tag ∈ doc.tags, OneLine tag.2

namespace Schema

/-- The texts of a schema that stand in its documentation as they are written, each on one line. -/
def OneLined (node : Json) : Prop :=
  ∀ keyword ∈ ["title", "format", "pattern"], ∀ text,
    node.get? keyword = some (.string text) → OneLine text

theorem mem_proseUnder {node : Json} {key line : String} : line ∈ proseUnder node key ↔
    ∃ text, node.text? key = some text ∧ line ∈ proseLines text := by
  unfold proseUnder
  cases node.text? key <;> simp

theorem oneLine_tagValue {keyword : String} {value : Json}
    (h : keyword ∈ ["format", "pattern"] → ∀ text, value = .string text → OneLine text) :
    OneLine (tagValue keyword value) := by
  unfold tagValue
  split
  · rename_i text
    split
    · rename_i raw
      refine h ?_ text rfl
      simpa using raw
    · exact Json.oneLine_toText _
  · exact Json.oneLine_toText _

/-- The value of a tag that stands as it is written. -/
theorem tag_of_text {node : Json} {keyword text : String} (hk : keyword ∈ ["format", "pattern"])
    (h : node.get? keyword = some (.string text)) :
    (keyword, text) ∈ taggedKeywords.filterMap fun keyword =>
      (node.get? keyword).map fun value => (keyword, tagValue keyword value) := by
  have tagged : ∀ keyword ∈ ["format", "pattern"], keyword ∈ taggedKeywords := by decide
  refine List.mem_filterMap.2 ⟨keyword, tagged keyword hk, ?_⟩
  rcases List.mem_pair.1 hk with rfl | rfl <;> rw [h] <;> rfl

/-- The documentation of a schema breaks a line only where a title, a format or a pattern does. -/
theorem oneLined_doc?_iff {node : Json} {doc : Doc} (h : doc? node = some doc) :
    doc.OneLined ↔ OneLined node := by
  unfold doc? Doc.nonempty? at h
  split at h
  · cases h
  · cases h
    constructor
    · rintro ⟨summary, tags⟩ keyword hk text found
      rcases List.mem_cons.1 hk with rfl | hk
      · refine summary text (List.mem_append_left _ ?_)
        rw [Json.text?, found]
        exact List.mem_singleton_self text
      · exact tags (keyword, text) (List.mem_append_right _ (tag_of_text hk found))
    · intro texts
      constructor
      · intro line hm
        rcases List.mem_append.1 hm with hm | hm
        · have titled : node.text? "title" = some line := by simpa using hm
          exact texts "title" List.mem_cons_self line (Json.text?_eq_some_iff.1 titled)
        · obtain ⟨text, -, hm⟩ := mem_proseUnder.1 hm
          exact oneLine_of_mem_proseLines hm
      · intro tag hm
        rcases List.mem_append.1 hm with hm | hm
        · unfold deprecatedTags at hm
          split at hm
          · rw [List.mem_singleton.1 hm]
            decide
          · cases hm
        · obtain ⟨keyword, -, ht⟩ := List.mem_filterMap.1 hm
          obtain ⟨value, found, rfl⟩ := Option.map_eq_some_iff.1 ht
          refine oneLine_tagValue fun hk text same => ?_
          exact texts keyword (List.mem_cons_of_mem _ hk) text (same ▸ found)

end Schema

end ApiTypes
