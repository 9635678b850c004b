import ApiTypes.Text.Identifier

/-!
# Tokens of a text

The first half of a reading of printed declarations that knows nothing of how they are printed: a
text is cut into tokens, one character after the other. A `Mode` is what the characters before
have left open.

* `run_append`: reading goes on where it stopped;
* `Lexes.append`: texts with a delimiter between them are read apart.
-/

namespace ApiTypes.Reading

open Text

inductive Token
  /-- An identifier or a keyword. -/
  | word (name : String)
  /-- A string literal, by what it denotes. -/
  | quoted (text : String)
  | whole (value : Nat)
  /-- The number `digits / 10 ^ places`. -/
  | decimal (digits places : Nat)
  | mark (c : Char)
  deriving DecidableEq, Repr

inductive Mode
  | between
  | word (read : List Char)
  | whole (value : Nat)
  | decimal (digits places : Nat)
  | quoted (read : List Char)
  /-- Behind a backslash. -/
  | escape (read : List Char)
  /-- Behind a backslash and `u`, with the digits read of four. -/
  | code (read digits : List Char)
  /-- Behind what has to start a comment. -/
  | slash
  | comment
  /-- Behind what may end a comment. -/
  | star
  deriving DecidableEq, Repr

def spaces : List Char :=
  [' ', '\n', '\t', '\r']

def marks : List Char :=
  ['\x7b', '\x7d', '(', ')', '[', ']', '|', '&', ':', ';', '?', '=', '-']

/-- What a character starts between tokens. -/
def start? (c : Char) : Option (List Token × Mode) :=
  if c ∈ spaces then some ([], .between)
  else if c ∈ marks then some ([.mark c], .between)
  else if isIdentifierStart c then some ([], .word [c])
  else if c.isDigit then some ([], .whole (digitValue c))
  else if c = '\x22' then some ([], .quoted [])
  else if c = '/' then some ([], .slash)
  else none

/-- The token that ends with a mode. A literal and a comment do not end before they are closed. -/
def Mode.end? : Mode → Option (List Token)
  | .between => some []
  | .word read => some [.word (String.ofList read)]
  | .whole value => some [.whole value]
  | .decimal digits (places + 1) => some [.decimal digits (places + 1)]
  | _ => none

/-- What a character starts that does not go on with what is open. -/
def Mode.restart? (mode : Mode) (c : Char) : Option (List Token × Mode) := do
  let ended ← mode.end?
  let (tokens, next) ← start? c
  return (ended ++ tokens, next)

/-- The character that a single one behind a backslash denotes. -/
def escaped? (c : Char) : Option Char :=
  match c with
  | 'n' => some '\n'
  | 'r' => some '\r'
  | 't' => some '\t'
  | '\\' => some '\\'
  | '\x22' => some '\x22'
  | _ => none

/-- Reads one character. Only zero itself starts with a zero, no word follows a number directly and
no line ends within a literal. -/
def Mode.step? : Mode → Char → Option (List Token × Mode)
  | .between, c => start? c
  | .word read, c =>
    if isIdentifierPart c then some ([], .word (read ++ [c])) else (Mode.word read).restart? c
  | .whole value, c =>
    if c.isDigit then
      if value = 0 then none else some ([], .whole (value * 10 + digitValue c))
    else if c = '.' then some ([], .decimal value 0)
    else if isIdentifierPart c then none
    else (Mode.whole value).restart? c
  | .decimal digits places, c =>
    if c.isDigit then some ([], .decimal (digits * 10 + digitValue c) (places + 1))
    else if isIdentifierPart c then none
    else (Mode.decimal digits places).restart? c
  | .quoted read, c =>
    if c = '\x22' then some ([.quoted (String.ofList read)], .between)
    else if c = '\\' then some ([], .escape read)
    else if c = '\n' ∨ c = '\r' then none
    else some ([], .quoted (read ++ [c]))
  | .escape read, c =>
    if c = 'u' then some ([], .code read [])
    else (escaped? c).map fun denoted => ([], .quoted (read ++ [denoted]))
  | .code read digits, c =>
    if digits.length < 3 then some ([], .code read (digits ++ [c]))
    else
      ((hexDigitsValue? (digits ++ [c])).bind charOf?).map fun denoted =>
        ([], .quoted (read ++ [denoted]))
  | .slash, c => if c = '*' then some ([], .comment) else none
  | .comment, c => some ([], if c = '*' then .star else .comment)
  | .star, c => some ([], if c = '/' then .between else if c = '*' then .star else .comment)

/-- Reads a text, up to the mode that it leaves. -/
def run (mode : Mode) : List Char → Option (List Token × Mode)
  | [] => some ([], mode)
  | c :: rest => do
    let (tokens, next) ← mode.step? c
    let (later, last) ← run next rest
    return (tokens ++ later, last)

/-- The tokens of a text. Blanks and comments give none. -/
def lex (text : String) : Option (List Token) := do
  let (tokens, last) ← run .between text.toList
  let ended ← last.end?
  return tokens ++ ended

/-! ## Reading on -/

/-- A text read from one mode on leaves another. -/
def Runs (mode : Mode) (text : String) (tokens : List Token) (last : Mode) : Prop :=
  run mode text.toList = some (tokens, last)

instance (mode : Mode) (text : String) (tokens : List Token) (last : Mode) :
    Decidable (Runs mode text tokens last) :=
  inferInstanceAs (Decidable (_ = _))

theorem run_append {mode mid last : Mode} {a b : List Char} {ts us : List Token}
    (ha : run mode a = some (ts, mid)) (hb : run mid b = some (us, last)) :
    run mode (a ++ b) = some (ts ++ us, last) := by
  induction a generalizing mode ts with
  | nil =>
    cases ha
    exact hb
  | cons c rest ih =>
    simp only [run, Option.bind_eq_bind, Option.bind_eq_some_iff] at ha
    obtain ⟨⟨tokens, next⟩, step, ⟨later, stop⟩, hrest, he⟩ := ha
    cases he
    rw [List.cons_append, run, step]
    simp [ih hrest]

theorem Runs.nil (mode : Mode) : Runs mode "" [] mode :=
  rfl

theorem Runs.append {mode mid last : Mode} {a b : String} {ts us : List Token}
    (ha : Runs mode a ts mid) (hb : Runs mid b us last) : Runs mode (a ++ b) (ts ++ us) last := by
  unfold Runs
  rw [String.toList_append]
  exact run_append ha hb

/-- A text that leaves nothing open and gives no tokens is passed over. -/
theorem Runs.skip {mode mid last : Mode} {a b : String} {us : List Token}
    (ha : Runs mode a [] mid) (hb : Runs mid b us last) : Runs mode (a ++ b) us last :=
  ha.append hb

/-! ## Texts read apart -/

def Lexes (text : String) (tokens : List Token) : Prop :=
  lex text = some tokens

instance (text : String) (tokens : List Token) : Decidable (Lexes text tokens) :=
  inferInstanceAs (Decidable (_ = _))

/-- What no word and no number goes on with. -/
def delimiters : List Char :=
  spaces ++ marks

/-- A text that starts with a delimiter, if it starts. -/
def Delimited (text : String) : Prop :=
  ∀ c ∈ text.toList.head?, c ∈ delimiters

-- Named, as the search may decide a statement about all characters by trying each of them.
instance (text : String) : Decidable (Delimited text) :=
  @Option.decidableForallMem Char (· ∈ delimiters) (fun _ => inferInstance) text.toList.head?

theorem lexes_iff {text : String} {tokens : List Token} : Lexes text tokens ↔
    ∃ read last ended, Runs .between text read last ∧ last.end? = some ended ∧
      tokens = read ++ ended := by
  unfold Lexes lex Runs
  simp only [Option.bind_eq_bind, Option.bind_eq_some_iff]
  constructor
  · rintro ⟨⟨read, last⟩, hr, ended, he, h⟩
    cases h
    exact ⟨read, last, ended, hr, he, rfl⟩
  · rintro ⟨read, last, ended, hr, he, rfl⟩
    exact ⟨⟨read, last⟩, hr, ended, he, rfl⟩

theorem Runs.lexes {text : String} {tokens : List Token} (h : Runs .between text tokens .between) :
    Lexes text tokens :=
  lexes_iff.2 ⟨tokens, .between, [], h, rfl, (List.append_nil _).symm⟩

theorem delimiter_ends {c : Char} (h : c ∈ delimiters) :
    isIdentifierPart c = false ∧ c.isDigit = false ∧ c ≠ '.' := by
  have all : (delimiters.all fun d => !isIdentifierPart d && !d.isDigit && d != '.') = true := by
    decide
  simpa [and_assoc] using List.all_eq_true.1 all c h

/-- What a word or a number goes on with starts nothing else. -/
theorem not_delimiter {c : Char} (h : isIdentifierPart c = true) : c ∉ spaces ∧ c ∉ marks := by
  constructor
  · intro hc
    simp [(delimiter_ends (List.mem_append_left _ hc)).1] at h
  · intro hc
    simp [(delimiter_ends (List.mem_append_right _ hc)).1] at h

/-- A delimiter ends what is open. -/
theorem step?_delimiter {mode : Mode} {ended : List Token} {c : Char} (he : mode.end? = some ended)
    (hc : c ∈ delimiters) : mode.step? c = mode.restart? c := by
  obtain ⟨part, digit, point⟩ := delimiter_ends hc
  cases mode with
  | between =>
    simp only [Mode.step?, Mode.restart?, Mode.end?, Option.bind_eq_bind, Option.bind_some,
      List.nil_append]
    cases start? c <;> rfl
  | word | whole | decimal => simp [Mode.step?, part, digit, point]
  | quoted | escape | code | slash | comment | star => cases he

theorem run_delimited {mode last : Mode} {ended us : List Token} {b : String}
    (he : mode.end? = some ended) (hd : Delimited b) (hne : b ≠ "")
    (hb : Runs .between b us last) : Runs mode b (ended ++ us) last := by
  unfold Runs Delimited at *
  cases hl : b.toList with
  | nil => exact absurd (String.toList_inj.1 hl) hne
  | cons c rest =>
    rw [hl] at hb hd
    have hc : c ∈ delimiters := hd c rfl
    rw [run, step?_delimiter he hc, Mode.restart?, he]
    rw [run, Mode.step?] at hb
    simp only [Option.bind_eq_bind, Option.bind_eq_some_iff] at hb
    obtain ⟨⟨tokens, next⟩, hs, ⟨later, stop⟩, hr, h⟩ := hb
    cases h
    simp [hs, hr]

/-- A delimiter ends the text before it. -/
theorem Lexes.runs {a b : String} {ts us : List Token} {last : Mode} (ha : Lexes a ts)
    (hd : Delimited b) (hne : b ≠ "") (hb : Runs .between b us last) :
    Runs .between (a ++ b) (ts ++ us) last := by
  obtain ⟨read, mid, ended, hr, he, rfl⟩ := lexes_iff.1 ha
  rw [List.append_assoc]
  exact hr.append (run_delimited he hd hne hb)

/-- Texts with a delimiter between them are read apart. -/
theorem Lexes.append {a b : String} {ts us : List Token} (ha : Lexes a ts) (hb : Lexes b us)
    (hd : Delimited b) : Lexes (a ++ b) (ts ++ us) := by
  by_cases hne : b = ""
  · subst hne
    cases hb
    simpa using ha
  · obtain ⟨read, last, ended, hr, he, rfl⟩ := lexes_iff.1 hb
    exact lexes_iff.2 ⟨_, last, ended, ha.runs hd hne hr, he, (List.append_assoc _ _ _).symm⟩

theorem Runs.then {a b : String} {ts us : List Token} (ha : Runs .between a ts .between)
    (hb : Lexes b us) : Lexes (a ++ b) (ts ++ us) := by
  obtain ⟨read, last, ended, hr, he, rfl⟩ := lexes_iff.1 hb
  exact lexes_iff.2 ⟨_, last, ended, ha.append hr, he, (List.append_assoc _ _ _).symm⟩

end ApiTypes.Reading
