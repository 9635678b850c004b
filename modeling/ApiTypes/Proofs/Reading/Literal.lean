import ApiTypes.Proofs.Reading.Lexer

/-!
# Tokens of names and string literals

A name that is an identifier is one word (`lexes_word`), a string literal denotes the text that it
was made of (`runs_quoted`), and so a property key is a token of its name (`lexes_propertyKey`).
-/

namespace ApiTypes.Reading

open Text

/-! ## Names -/

theorem run_word {chars : List Char} (h : ∀ c ∈ chars, isIdentifierPart c = true)
    (read : List Char) : run (.word read) chars = some ([], .word (read ++ chars)) := by
  induction chars generalizing read with
  | nil => simp [run]
  | cons c rest ih =>
    have part : isIdentifierPart c = true := h c List.mem_cons_self
    have later := ih (fun d hd => h d (List.mem_cons_of_mem _ hd)) (read ++ [c])
    simp [run, Mode.step?, part, later]

theorem start?_identifier {c : Char} (h : isIdentifierStart c = true) :
    start? c = some ([], .word [c]) := by
  obtain ⟨space, mark⟩ := not_delimiter (c := c) (by simp [isIdentifierPart, h])
  rw [start?, if_neg space, if_neg mark, if_pos h]

/-- An identifier is one word. -/
theorem lexes_word {name : String} (h : isIdentifier name = true) : Lexes name [.word name] := by
  unfold isIdentifier at h
  cases hn : name.toList with
  | nil => simp [hn] at h
  | cons c rest =>
    rw [hn] at h
    simp only [Bool.and_eq_true, List.all_eq_true] at h
    have word : run .between (c :: rest) = some ([], .word (c :: rest)) := by
      simp [run, Mode.step?, start?_identifier h.1, run_word h.2]
    refine lexes_iff.2 ⟨[], .word (c :: rest), [.word name], ?_, ?_, rfl⟩
    · unfold Runs
      rw [hn, word]
    · rw [Mode.end?, ← hn, String.ofList_toList]

/-! ## String literals -/

theorem hexValue?_hexDigit : ∀ n < 16, hexValue? (hexDigit n) = some n := by
  decide

theorem hexDigitsValue?_hex4 {n : Nat} (h : n < 65536) : hexDigitsValue? (hex4 n) = some n := by
  have digit (k : Nat) : hexValue? (hexDigit (k % 16)) = some (k % 16) :=
    hexValue?_hexDigit _ (Nat.mod_lt _ (by decide))
  simp only [hexDigitsValue?, hex4, List.mapM_cons, List.mapM_nil, digit, Option.pure_def,
    Option.bind_eq_bind, Option.bind_some, Option.map_some, List.foldl_cons, List.foldl_nil,
    Option.some.injEq]
  omega

theorem charOf?_toNat (c : Char) : charOf? c.toNat = some c := by
  have valid : c.toNat.isValidChar := c.valid
  rw [charOf?, dif_pos valid]
  rfl

/-- Four digits are enough for all characters that are written by their codes. -/
theorem toNat_lt_of_coded {c : Char}
    (h : (isControl c || c == '\u2028' || c == '\u2029') = true) : c.toNat < 65536 := by
  simp only [isControl, Bool.or_eq_true, Bool.and_eq_true, decide_eq_true_eq, beq_iff_eq] at h
  rcases h with (h | h) | h
  · omega
  · rw [h]
    decide
  · rw [h]
    decide

/-- What stands in a literal for a character denotes the character. -/
theorem run_escapeChar (read : List Char) (c : Char) :
    run (.quoted read) (escapeChar c) = some ([], .quoted (read ++ [c])) := by
  unfold escapeChar
  split
  case h_6 backslash quote newline carriage tab =>
    split
    · rename_i coded
      have value := hexDigitsValue?_hex4 (toNat_lt_of_coded coded)
      unfold hex4 at value ⊢
      simp [run, Mode.step?, value, charOf?_toNat]
    · have lines : ¬(c = '\n' ∨ c = '\r') := fun h => h.elim newline carriage
      rw [run, Mode.step?, if_neg quote, if_neg backslash, if_neg lines]
      rfl
  all_goals rfl

theorem runs_escape (text : String) : Runs (.quoted []) (escape text) [] (.quoted text.toList) := by
  have all (chars read : List Char) :
      run (.quoted read) (chars.flatMap escapeChar) = some ([], .quoted (read ++ chars)) := by
    induction chars generalizing read with
    | nil => simp [run]
    | cons c rest ih =>
      rw [List.flatMap_cons]
      simpa using run_append (run_escapeChar read c) (ih (read ++ [c]))
  unfold Runs escape
  rw [String.toList_ofList]
  exact all text.toList []

/-- A literal denotes the text it was made of. -/
theorem runs_quoted (text : String) : Runs .between (quoted text) [.quoted text] .between := by
  have opening : Runs .between "\"" [] (.quoted []) := by decide
  have closing : Runs (.quoted text.toList) "\"" [.quoted text] .between := by
    unfold Runs
    simp [run, Mode.step?]
  exact (opening.append (runs_escape text)).append closing

/-! ## Keys -/

/-- The token of a property key. -/
def keyToken (name : String) : Token :=
  if isIdentifier name then .word name else .quoted name

theorem lexes_propertyKey (name : String) : Lexes (propertyKey name) [keyToken name] := by
  unfold propertyKey keyToken
  split
  · exact lexes_word ‹_›
  · exact (runs_quoted name).lexes

end ApiTypes.Reading
