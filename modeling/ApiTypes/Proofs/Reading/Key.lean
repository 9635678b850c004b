import ApiTypes.Proofs.Name
import ApiTypes.Proofs.Reading.Literal

/-!
# Literals and keys by themselves

A string literal is read from its opening quote to the first quote that is not behind a backslash,
whatever stands behind it, and no line may end within. Read so, every text comes back from its
literal (`readLiteral_quoted`). A property key is a plain identifier or such a literal, never both,
so different names have different keys (`propertyKey_injective`).
-/

namespace ApiTypes.Reading

open Text

/-! ## Literals -/

/-- The characters that end a line. In a literal they may not stand for themselves. -/
def lineEnds : List Char :=
  ['\n', '\r', '\u2028', '\u2029']

/-- What is denoted up to the closing quote, and what stands behind the quote. A backslash is
followed by `u` and four digits in base sixteen, or by one of five characters. -/
def readInside : List Char → Option (List Char × List Char)
  | [] => none
  | '\\' :: 'u' :: a :: b :: c :: d :: rest => do
    let denoted ← (hexDigitsValue? [a, b, c, d]).bind charOf?
    let (text, behind) ← readInside rest
    return (denoted :: text, behind)
  | '\\' :: c :: rest => do
    let denoted ← escaped? c
    let (text, behind) ← readInside rest
    return (denoted :: text, behind)
  | c :: rest =>
    if c = '\x22' then some ([], rest)
    else if c = '\\' ∨ c ∈ lineEnds then none
    else do
      let (text, behind) ← readInside rest
      return (c :: text, behind)

/-- What the literal denotes that a text starts with, and the rest of the text. -/
def readLiteral : List Char → Option (List Char × List Char)
  | '\x22' :: rest => readInside rest
  | _ => none

/-- What stands for itself is read as itself. -/
theorem readInside_plain {c : Char} (quote : c ≠ '\x22') (backslash : c ≠ '\\')
    (within : c ∉ lineEnds) {rest text behind : List Char}
    (h : readInside rest = some (text, behind)) :
    readInside (c :: rest) = some (c :: text, behind) := by
  unfold readInside
  split
  · contradiction
  · rename_i same
    exact absurd (List.cons.inj same).1 backslash
  · rename_i same
    exact absurd (List.cons.inj same).1 backslash
  · rename_i same
    cases same
    rw [if_neg quote, if_neg (not_or.2 ⟨backslash, within⟩), h]
    rfl

/-- What stands in a literal for a character is read as that character alone. -/
theorem readInside_escapeChar (c : Char) {rest text behind : List Char}
    (h : readInside rest = some (text, behind)) :
    readInside (escapeChar c ++ rest) = some (c :: text, behind) := by
  unfold escapeChar
  split
  case h_6 backslash quote newline carriage tab =>
    split
    · rename_i coded
      have value := hexDigitsValue?_hex4 (toNat_lt_of_coded coded)
      unfold hex4 at value ⊢
      simp [readInside, value, charOf?_toNat, h]
    · rename_i plain
      simp only [Bool.or_eq_true, beq_iff_eq, not_or] at plain
      have within : c ∉ lineEnds := by
        intro hm
        simp only [lineEnds, List.mem_cons, List.not_mem_nil, or_false] at hm
        rcases hm with line | line | line | line
        · exact newline line
        · exact carriage line
        · exact plain.1.2 line
        · exact plain.2 line
      exact readInside_plain quote backslash within h
  all_goals simp [readInside, escaped?, h]

/-- Behind the opening quote of a literal its text is read, and what stands behind it is left. -/
theorem readInside_flatMap (text behind : List Char) :
    readInside (text.flatMap escapeChar ++ '\x22' :: behind) = some (text, behind) := by
  induction text with
  | nil => simp [readInside]
  | cons c rest ih =>
    rw [List.flatMap_cons, List.append_assoc]
    exact readInside_escapeChar c ih

theorem readLiteral_quoted (text : String) (behind : List Char) :
    readLiteral ((quoted text).toList ++ behind) = some (text.toList, behind) := by
  have inside := readInside_flatMap text.toList behind
  simpa [quoted, escape, readLiteral] using inside

/-! ## Keys -/

/-- A name of letters, digits, `_` and `$` that starts with no digit. -/
structure PlainIdentifier (name : String) : Prop where
  start : ∃ first rest, name.toList = first :: rest ∧ first.isDigit = false
  parts : ∀ c ∈ name.toList, c.isAlphanum = true ∨ c = '_' ∨ c = '$'

theorem isIdentifierPart_iff_isAlphanum {c : Char} :
    isIdentifierPart c = true ↔ c.isAlphanum = true ∨ c = '_' ∨ c = '$' := by
  simp only [isIdentifierPart, isIdentifierStart, isLetter, Char.isAlphanum, Bool.or_eq_true,
    beq_iff_eq]
  tauto

theorem isIdentifierStart_iff_part {c : Char} :
    isIdentifierStart c = true ↔ isIdentifierPart c = true ∧ c.isDigit = false := by
  rw [isIdentifierPart_iff, Bool.eq_false_iff, ne_eq, isIdentifierStart_iff, isDigit_iff]
  omega

theorem isIdentifier_iff {name : String} : isIdentifier name = true ↔ PlainIdentifier name := by
  unfold isIdentifier
  split
  · rename_i empty
    constructor
    · intro accepted
      cases accepted
    · rintro ⟨⟨first, rest, named, -⟩, -⟩
      rw [empty] at named
      cases named
  · rename_i first rest named
    rw [Bool.and_eq_true, List.all_eq_true, isIdentifierStart_iff_part]
    constructor
    · rintro ⟨⟨part, digit⟩, parts⟩
      refine ⟨⟨first, rest, named, digit⟩, ?_⟩
      rw [named]
      intro c hm
      rcases List.mem_cons.1 hm with rfl | hm
      · exact isIdentifierPart_iff_isAlphanum.1 part
      · exact isIdentifierPart_iff_isAlphanum.1 (parts c hm)
    · rintro ⟨⟨other, others, same, digit⟩, parts⟩
      rw [named] at same parts
      cases same
      have part (c : Char) (hm : c ∈ first :: rest) := isIdentifierPart_iff_isAlphanum.2 (parts c hm)
      exact ⟨⟨part first List.mem_cons_self, digit⟩, fun c hm => part c (List.mem_cons_of_mem _ hm)⟩

/-- A plain identifier is no literal. -/
theorem PlainIdentifier.readLiteral {name : String} (h : PlainIdentifier name) :
    readLiteral name.toList = none := by
  obtain ⟨first, rest, named, -⟩ := h.start
  have quote : first ≠ '\x22' := by
    rintro rfl
    have := h.parts '\x22' (by rw [named]; exact List.mem_cons_self)
    revert this
    decide
  rw [named]
  unfold Reading.readLiteral
  split
  · rename_i same
    exact absurd (List.cons.inj same).1 quote
  · rfl

/-- The key of a property is its name, if that is a plain identifier, and else a literal of it. -/
theorem propertyKey_cases (name : String) :
    PlainIdentifier name ∧ propertyKey name = name ∨
      ¬PlainIdentifier name ∧ readLiteral (propertyKey name).toList = some (name.toList, []) := by
  unfold propertyKey
  by_cases plain : PlainIdentifier name
  · rw [if_pos (isIdentifier_iff.2 plain)]
    exact .inl ⟨plain, rfl⟩
  · rw [if_neg (mt isIdentifier_iff.1 plain)]
    refine .inr ⟨plain, ?_⟩
    simpa using readLiteral_quoted name []

theorem propertyKey_injective : Function.Injective propertyKey := by
  intro name other same
  rcases propertyKey_cases name with ⟨plain, key⟩ | ⟨-, read⟩ <;>
    rcases propertyKey_cases other with ⟨plain', key'⟩ | ⟨-, read'⟩
  · rw [← key, same, key']
  · rw [← same, key, plain.readLiteral] at read'
    cases read'
  · rw [same, key', plain'.readLiteral] at read
    cases read
  · rw [same, read'] at read
    exact String.toList_inj.1 (Prod.mk.inj (Option.some.inj read)).1.symm

/-- Every text comes back from its literal, and every property name from its key: it is the key
itself where it is a plain identifier, and what the key denotes where it is not. No two names share
a key. -/
theorem literals_and_keys_read :
    (∀ (text : String) (behind : List Char),
      readLiteral ((quoted text).toList ++ behind) = some (text.toList, behind)) ∧
    (∀ name : String,
      PlainIdentifier name ∧ propertyKey name = name ∨
        ¬PlainIdentifier name ∧ readLiteral (propertyKey name).toList = some (name.toList, [])) ∧
    Function.Injective propertyKey :=
  ⟨readLiteral_quoted, propertyKey_cases, propertyKey_injective⟩

end ApiTypes.Reading
