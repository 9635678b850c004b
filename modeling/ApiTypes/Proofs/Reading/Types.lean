import ApiTypes.Proofs.Reading.Comment
import ApiTypes.Proofs.Reading.Grammar
import ApiTypes.Proofs.Reading.Number
import ApiTypes.Proofs.Reading.Printable

/-!
# Texts of types

The text of a printable type is read as a type that agrees with it (`reads_type`). The induction
carries more: a type that is no union is printed as operands with `&` between them
(`OperandsText`), one for each type that it is an intersection of.
-/

namespace ApiTypes.Reading

open TypeExpr

/-- A text of operands with `&` between them, one for each type. -/
def OperandsText (text : String) (types : List TypeExpr) : Prop :=
  ∃ groups : List (List Token × TypeExpr), groups ≠ [] ∧
    Lexes text (between '&' (groups.map (·.1))) ∧ (∀ group ∈ groups, Operand group.1 group.2) ∧
    List.Forall₂ Agrees types (groups.map (·.2))

/-- A text that is read as a type which agrees with one. -/
def WholeText (text : String) (type : TypeExpr) : Prop :=
  ∃ tokens read, Lexes text tokens ∧ Whole tokens read ∧ Agrees type read

/-- A text that is read as an alternative which agrees with a type. -/
def ConjunctionText (text : String) (type : TypeExpr) : Prop :=
  ∃ tokens read, Lexes text tokens ∧ Conjunction tokens read ∧ Agrees type read

theorem OperandsText.single {text : String} {tokens : List Token} {type read : TypeExpr}
    (hl : Lexes text tokens) (ho : Operand tokens read) (ha : Agrees type read) :
    OperandsText text [type] := by
  refine ⟨[(tokens, read)], by simp, ?_, ?_, .cons ha .nil⟩
  · rw [List.map_singleton, between_singleton]
    exact hl
  · intro group hm
    rw [List.mem_singleton.1 hm]
    exact ho

theorem OperandsText.exists_single {text : String} {type : TypeExpr}
    (h : OperandsText text [type]) :
    ∃ tokens read, Lexes text tokens ∧ Operand tokens read ∧ Agrees type read := by
  obtain ⟨groups, -, hl, ho, ha⟩ := h
  match groups, ha with
  | [group], .cons ha .nil =>
    rw [List.map_singleton, between_singleton] at hl
    exact ⟨group.1, group.2, hl, ho group (List.mem_singleton_self _), ha⟩

/-! ## Levels -/

theorem conjunctsOf_of_not_intersection {type : TypeExpr} (h : type.isIntersection = false) :
    conjunctsOf type = [type] := by
  cases type with
  | intersection => cases h
  | _ => rfl

theorem conjunctsOfAll_eq (types : List TypeExpr) :
    conjunctsOfAll types = types.flatMap conjunctsOf := by
  induction types with
  | nil => rfl
  | cons type rest ih => rw [conjunctsOfAll, ih, List.flatMap_cons]

theorem conjunctsOf_ne_nil {type : TypeExpr} (h : Printable type) : conjunctsOf type ≠ [] := by
  induction h with
  | @intersection types several inner ih =>
    obtain ⟨first, hm⟩ := List.exists_mem_of_ne_nil types (by
      rintro rfl
      simp at several)
    intro none
    rw [conjunctsOf, conjunctsOfAll_eq] at none
    exact ih first hm (List.flatMap_eq_nil_iff.1 none first hm)
  | _ => simp [conjunctsOf]

theorem length_le_conjunctsOfAll {types : List TypeExpr} (h : ∀ type ∈ types, Printable type) :
    types.length ≤ (conjunctsOfAll types).length := by
  induction types with
  | nil => exact Nat.zero_le _
  | cons type rest ih =>
    have later := ih fun t hm => h t (List.mem_cons_of_mem _ hm)
    have first := List.length_pos_iff.2 (conjunctsOf_ne_nil (h type List.mem_cons_self))
    rw [conjunctsOfAll, List.length_append, List.length_cons]
    omega

theorem joined_of_several {join : List TypeExpr → TypeExpr} {types : List TypeExpr}
    (h : 2 ≤ types.length) : joined join types = join types := by
  match types, h with
  | _ :: _ :: _, _ => rfl

theorem OperandsText.conjunction {text : String} {type : TypeExpr} (hp : Printable type)
    (h : OperandsText text (conjunctsOf type)) : ConjunctionText text type := by
  obtain ⟨groups, hne, hl, ho, ha⟩ := h
  refine ⟨_, _, hl, Conjunction.of_operands hne ho, ?_⟩
  cases hi : type.isIntersection with
  | true =>
    cases hp with
    | @intersection types several inner =>
      have count := length_le_conjunctsOfAll inner
      have length := ha.length_eq
      rw [conjunctsOf] at ha length
      rw [joined_of_several (by omega)]
      exact .intersection ha
    | _ => cases hi
  | false =>
    rw [conjunctsOf_of_not_intersection hi] at ha
    generalize groups.map (·.2) = reads at ha ⊢
    cases ha with
    | cons first rest =>
      cases rest
      exact first

theorem lexes_intercalate {separator : String} {c : Char}
    (hs : Runs .between separator [.mark c] .between) (hd : Delimited separator)
    (hne : separator ≠ "") {texts : List String} {groups : List (List Token)}
    (h : List.Forall₂ Lexes texts groups) :
    Lexes (separator.intercalate texts) (between c groups) := by
  induction h with
  | nil =>
    rw [String.intercalate_nil]
    rfl
  | @cons text group texts groups first rest ih =>
    by_cases last : texts = []
    · subst last
      cases rest
      rw [String.intercalate_singleton, between_singleton]
      exact first
    · have more : groups ≠ [] := by
        rintro rfl
        cases rest
        exact last rfl
      rw [String.intercalate_cons_of_ne_nil last, between_cons _ more]
      have both := (first.runs hd hne hs).then ih
      rwa [List.append_assoc, List.singleton_append] at both

/-- Alternatives with `|` between them, at least one. -/
theorem whole_of_conjunctions {texts : List String} {types : List TypeExpr} (hne : types ≠ [])
    (h : List.Forall₂ ConjunctionText texts types) : ∃ tokens reads,
      Lexes (" | ".intercalate texts) tokens ∧ Whole tokens (joined .union reads) ∧
        List.Forall₂ Agrees types reads := by
  have parts : ∃ groups : List (List Token × TypeExpr),
      List.Forall₂ Lexes texts (groups.map (·.1)) ∧
      (∀ group ∈ groups, Conjunction group.1 group.2) ∧
      List.Forall₂ Agrees types (groups.map (·.2)) := by
    clear hne
    induction h with
    | nil => exact ⟨[], .nil, by simp, .nil⟩
    | cons first rest ih =>
      obtain ⟨tokens, read, hl, hc, ha⟩ := first
      obtain ⟨groups, ls, cs, as⟩ := ih
      refine ⟨(tokens, read) :: groups, .cons hl ls, ?_, .cons ha as⟩
      intro group hm
      rcases List.mem_cons.1 hm with rfl | hm
      · exact hc
      · exact cs group hm
  obtain ⟨groups, hl, hc, ha⟩ := parts
  have some : groups ≠ [] := by
    rintro rfl
    cases ha
    exact hne rfl
  exact ⟨_, _, lexes_intercalate (by decide) (by decide) (by decide) hl,
    Whole.of_conjunctions some hc, ha⟩

theorem ConjunctionText.whole {text : String} {type : TypeExpr} (h : ConjunctionText text type) :
    WholeText text type := by
  obtain ⟨tokens, reads, hl, hw, ha⟩ := whole_of_conjunctions (List.cons_ne_nil type []) (.cons h .nil)
  cases ha with
  | cons first rest =>
    cases rest
    rw [String.intercalate_singleton] at hl
    exact ⟨tokens, _, hl, hw, first⟩

theorem lexes_parenthesized {text : String} {tokens : List Token} (h : Lexes text tokens) :
    Lexes (parenthesized text) (.mark '(' :: tokens ++ [.mark ')']) := by
  have opening : Runs .between "(" [.mark '('] .between := by decide
  have closing : Lexes ")" [.mark ')'] := by decide
  exact (opening.then h).append closing (by decide)

theorem WholeText.parenthesized {text : String} {type : TypeExpr} (h : WholeText text type) :
    OperandsText (parenthesized text) [type] := by
  obtain ⟨tokens, read, hl, hw, ha⟩ := h
  exact .single (lexes_parenthesized hl) hw.parenthesized ha

/-! ## Types that hold no others -/

theorem operandsText_word {name : String} {type : TypeExpr} (hi : Text.isIdentifier name = true)
    (ha : Agrees type (wordType name)) : OperandsText name [type] :=
  .single (lexes_word hi) (.word name) ha

theorem operandsText_primitive (kind : Primitive) :
    OperandsText kind.toText [.primitive kind] := by
  cases kind with
  | string | number | boolean | never | undefined =>
    exact operandsText_word (by decide) (by simpa [wordType] using .primitive _)

theorem isIdentifier_of_typeName {name : String} (h : Text.TypeName name) :
    Text.isIdentifier name = true := by
  obtain ⟨c, rest, hn, hc⟩ := h.start
  have parts := h.parts
  rw [hn] at parts
  simp only [Text.isTypeStart, Bool.and_eq_true] at hc
  simp only [Text.isIdentifier, hn, Bool.and_eq_true, List.all_eq_true]
  exact ⟨hc.1, fun d hd => parts d (List.mem_cons_of_mem _ hd)⟩

theorem operandsText_ref {name : String} (h : Text.TypeName name) : OperandsText name [.ref name] := by
  have word : wordType name = .ref name := by
    have lower : ∀ word ∈ keywordTypes.map (·.1), ∃ c rest, word.toList = c :: rest ∧
        c.isLower = true := by
      simp [keywordTypes]
    rw [wordType, List.lookup_eq_none_iff.2 fun entry hm => ?_]
    · rfl
    · obtain ⟨c, rest, hw, hl⟩ := lower entry.1 (List.mem_map_of_mem hm)
      exact bne_iff_ne.2 (h.ne_of_lower hw hl)
  exact operandsText_word (isIdentifier_of_typeName h) (word ▸ .ref name)

theorem lexes_negative {text : String} {token : Token} (h : Lexes text [token]) :
    Lexes ("-" ++ text) [.mark '-', token] := by
  have minus : Runs .between "-" [.mark '-'] .between := by decide
  exact minus.then h

theorem lexes_toString (n : Nat) : Lexes (toString n) [.whole n] := by
  by_cases zero : n = 0
  · subst zero
    decide
  · obtain ⟨c, rest, hd, hc⟩ := head_toDigits n zero
    have digits : ∀ d ∈ c :: rest, d.isDigit = true := by
      intro d hm
      rw [← hd] at hm
      exact Nat.isDigit_of_mem_toDigits (by decide) (by decide) hm
    have read := run_digits digits hc
    rw [← hd, Text.digitsValue_eq, Nat.ofDigitChars_ten_toDigits] at read
    rw [Nat.toString_eq_ofList_toDigits]
    exact lexes_of_run read rfl

theorem operandsText_int (value : Int) :
    OperandsText (Literal.int value).toText [.literal (.int value)] := by
  change OperandsText value.repr _
  rw [Int.repr_eq_if]
  split
  · rename_i natural
    have same : ((value.toNat : Nat) : Int) = value := Int.toNat_of_nonneg natural
    have agrees : SameLiteral (.int value) (.int (value.toNat : Int)) := by rw [same]; rfl
    exact .single (lexes_toString value.toNat) (.numeral false rfl) (.literal agrees)
  · rename_i negative
    have same : -(((-value).toNat : Nat) : Int) = value := by omega
    have agrees : SameLiteral (.int value) (.int (-((-value).toNat : Int))) := by rw [same]; rfl
    exact .single (lexes_negative (lexes_toString (-value).toNat)) (.numeral true rfl)
      (.literal agrees)

theorem operandsText_number {value : Binary64} (h : value.isFinite = true) :
    OperandsText (Literal.number value).toText [.literal (.number value)] := by
  cases value with
  | infinite | nan => cases h
  | finite negative x =>
    obtain ⟨token, literal, hl, hn, hs⟩ := denotes_magnitudeText negative x
    change OperandsText ((if negative then "-" else "") ++ _) _
    cases negative with
    | true => exact .single (lexes_negative hl) (.numeral true hn) (.literal hs)
    | false =>
      have plain : Lexes ((if false = true then "-" else "") ++
          Binary64.magnitudeText Literal.numberFormat x) [token] := by
        simpa using hl
      exact .single plain (.numeral false hn) (.literal hs)

theorem operandsText_literal {value : Literal} (h : FiniteLiteral value) :
    OperandsText value.toText [.literal value] := by
  cases value with
  | string text => exact .single (runs_quoted text).lexes (.quoted text) (.literal rfl)
  | number value => exact operandsText_number h
  | int value => exact operandsText_int value
  | bool value =>
    cases value with
    | true | false =>
      exact operandsText_word (by decide) (by simpa [wordType] using .literal rfl)
  | null => exact operandsText_word (by decide) (by simpa [wordType] using .literal rfl)

theorem operandsText_unknown (note : Option String) (depth : Nat) :
    OperandsText (toText depth (.unknown note)) [.unknown note] := by
  cases note with
  | none =>
    have word : OperandsText "unknown" [.unknown none] :=
      operandsText_word (by decide) (.unknown none)
    exact word
  | some note =>
    have word : Lexes "unknown" [.word "unknown"] := by decide
    have delimited : Delimited (" /* " ++ Text.comment note ++ " */") := by
      simp [Delimited, delimiters, spaces]
    have text : Lexes ("unknown" ++ (" /* " ++ Text.comment note ++ " */")) [.word "unknown"] :=
      word.append (runs_note note).lexes delimited
    rw [← String.append_assoc, ← String.append_assoc] at text
    exact .single text (.word "unknown") (.unknown (some note))

/-! ## Types that hold others -/

/-- A type is read back from its text, at whatever depth it stands. -/
def Reads (type : TypeExpr) : Prop :=
  ∀ depth, (type.isUnion = false → OperandsText (type.toText depth) (conjunctsOf type)) ∧
    WholeText (type.toText depth) type

theorem reads_of_operands {type : TypeExpr} (hp : Printable type)
    (h : ∀ depth, OperandsText (type.toText depth) (conjunctsOf type)) : Reads type :=
  fun depth => ⟨fun _ => h depth, ((h depth).conjunction hp).whole⟩

theorem reads_array {item : TypeExpr} (hp : Printable item) (h : Reads item) :
    Reads (.array item) := by
  refine reads_of_operands (.array hp) fun depth => ?_
  have inner : OperandsText (if item.isUnion || item.isIntersection then
      parenthesized (item.toText depth) else item.toText depth) [item] := by
    split
    · exact (h depth).2.parenthesized
    · rename_i plain
      simp only [Bool.or_eq_true, not_or, Bool.not_eq_true] at plain
      have operands := (h depth).1 plain.1
      rwa [conjunctsOf_of_not_intersection plain.2] at operands
  obtain ⟨tokens, read, hl, ho, ha⟩ := inner.exists_single
  have brackets : Lexes "[]" [.mark '[', .mark ']'] := by decide
  rw [toText, conjunctsOf_of_not_intersection rfl]
  exact .single (hl.append brackets (by decide)) ho.array (.array ha)

theorem alternativeTexts_eq (depth : Nat) (types : List TypeExpr) :
    alternativeTexts depth types = types.map (toText depth) := by
  induction types with
  | nil => rfl
  | cons type rest ih => rw [alternativeTexts, ih, List.map_cons]

theorem reads_union {types : List TypeExpr} (several : 2 ≤ types.length)
    (flat : ∀ type ∈ types, type.isUnion = false) (hp : ∀ type ∈ types, Printable type)
    (h : ∀ type ∈ types, Reads type) : Reads (.union types) := by
  intro depth
  refine ⟨fun hu => absurd hu (by simp [isUnion]), ?_⟩
  have texts : List.Forall₂ ConjunctionText (types.map (toText depth)) types := by
    rw [List.forall₂_map_left_iff, List.forall₂_same]
    intro type hm
    exact ((h type hm depth).1 (flat type hm)).conjunction (hp type hm)
  have some : types ≠ [] := by
    rintro rfl
    simp at several
  obtain ⟨tokens, reads, hl, hw, ha⟩ := whole_of_conjunctions some texts
  rw [joined_of_several (ha.length_eq ▸ several)] at hw
  rw [toText, alternativeTexts_eq]
  exact ⟨tokens, _, hl, hw, .union ha⟩

theorem OperandsText.append {a b : String} {as bs : List TypeExpr} (ha : OperandsText a as)
    (hb : OperandsText b bs) : OperandsText (a ++ " & " ++ b) (as ++ bs) := by
  obtain ⟨before, hne, hl, ho, ht⟩ := ha
  obtain ⟨behind, hne', hl', ho', ht'⟩ := hb
  have ampersand : Runs .between " & " [.mark '&'] .between := by decide
  refine ⟨before ++ behind, List.append_ne_nil_of_left_ne_nil hne _, ?_, ?_, ?_⟩
  · rw [List.map_append, between_append (by simpa using hne) (by simpa using hne')]
    have both := (hl.runs (by decide) (by decide) ampersand).then hl'
    rwa [List.append_assoc, List.singleton_append] at both
  · intro group hm
    rcases List.mem_append.1 hm with hm | hm
    · exact ho group hm
    · exact ho' group hm
  · rw [List.map_append]
    exact List.rel_append ht ht'

theorem operandsText_conjuncts {types : List TypeExpr} (some : types ≠ []) {depth : Nat}
    (h : ∀ type ∈ types, Reads type) :
    OperandsText (" & ".intercalate (conjunctTexts depth types)) (conjunctsOfAll types) := by
  induction types with
  | nil => exact absurd rfl some
  | cons type rest ih =>
    have first : OperandsText (if type.isUnion then parenthesized (type.toText depth)
        else type.toText depth) (conjunctsOf type) := by
      split
      · rename_i hu
        have alone : conjunctsOf type = [type] := by
          cases type with
          | union => rfl
          | _ => cases hu
        rw [alone]
        exact (h type List.mem_cons_self depth).2.parenthesized
      · rename_i hu
        exact (h type List.mem_cons_self depth).1 (by simpa using hu)
    by_cases last : rest = []
    · subst last
      rw [conjunctTexts, conjunctTexts, String.intercalate_singleton, conjunctsOfAll,
        conjunctsOfAll, List.append_nil]
      exact first
    · have later := ih last fun t hm => h t (List.mem_cons_of_mem _ hm)
      have more : conjunctTexts depth rest ≠ [] := by
        obtain ⟨second, others, rfl⟩ := List.exists_cons_of_ne_nil last
        rw [conjunctTexts]
        exact List.cons_ne_nil _ _
      rw [conjunctTexts, String.intercalate_cons_of_ne_nil more, conjunctsOfAll]
      exact first.append later

theorem reads_intersection {types : List TypeExpr} (several : 2 ≤ types.length)
    (hp : ∀ type ∈ types, Printable type) (h : ∀ type ∈ types, Reads type) :
    Reads (.intersection types) := by
  refine reads_of_operands (.intersection several hp) fun depth => ?_
  have some : types ≠ [] := by
    rintro rfl
    simp at several
  rw [toText, conjunctsOf]
  exact operandsText_conjuncts some h

/-! ## Members -/

/-- A text that is read as a member which agrees with one, and leaves nothing open. -/
def MemberText (text : String) (m : Member) : Prop :=
  ∃ tokens read, Runs .between text tokens .between ∧ MemberTokens tokens read ∧
    MemberAgrees m read

/-- The words before the key of a property. -/
theorem runs_beforeKey {doc : Option Doc} (hd : Typing.Documented doc) (depth : Nat)
    (isReadonly : Bool) :
    Runs .between (Doc.toText depth doc ++ Text.indentation depth ++
      if isReadonly then "readonly " else "")
      (if isReadonly then [.word "readonly"] else []) .between := by
  have blanks : Runs .between (Text.indentation depth) [] .between := runs_indentation rfl depth
  refine ((runs_doc hd depth).skip blanks).skip ?_
  cases isReadonly with
  | true => decide
  | false => exact Runs.nil _

theorem memberText_property {name : String} {type : TypeExpr} {isOptional isReadonly : Bool}
    {doc : Option Doc} (hd : Typing.Documented doc) (depth : Nat)
    (h : WholeText (type.toText depth) type) :
    MemberText (memberText depth (.property name type isOptional isReadonly doc))
      (.property name type isOptional isReadonly doc) := by
  obtain ⟨tokens, read, hl, hw, ha⟩ := h
  have key := (runs_beforeKey hd depth isReadonly).then (lexes_propertyKey name)
  have ending : Runs .between ";\n" [.mark ';'] .between := by decide
  have colon : Runs .between ": " [.mark ':'] .between := by decide
  have question : Runs .between "?" [.mark '?'] .between := by decide
  have text : Runs .between (memberText depth (.property name type isOptional isReadonly doc))
      (propertyTokens name isOptional isReadonly ++ tokens ++ [.mark ';']) .between := by
    rw [memberText, propertyTokens]
    cases isOptional with
    | true =>
      have keyed := (key.runs (by decide) (by decide) question).append colon
      have typed := (keyed.then hl).runs (by decide) (by decide) ending
      simpa using typed
    | false =>
      have keyed := key.runs (by decide) (by decide) colon
      have typed := (keyed.then hl).runs (by decide) (by decide) ending
      simpa using typed
  exact ⟨_, _, text, .property hw name isOptional isReadonly, .property ha⟩

theorem memberText_index {key value : TypeExpr} (depth : Nat) (hk : WholeText (key.toText depth) key)
    (hv : WholeText (value.toText depth) value) :
    MemberText (memberText depth (.index key value)) (.index key value) := by
  obtain ⟨ofKey, readKey, lk, wk, ak⟩ := hk
  obtain ⟨ofValue, readValue, lv, wv, av⟩ := hv
  have blanks : Runs .between (Text.indentation depth) [] .between := runs_indentation rfl depth
  have opening : Runs .between "[key: " [.mark '[', .word "key", .mark ':'] .between := by
    decide
  have closing : Runs .between "]: " [.mark ']', .mark ':'] .between := by decide
  have ending : Runs .between ";\n" [.mark ';'] .between := by decide
  have keyed := ((blanks.skip opening).then lk).runs (by decide) (by decide) closing
  have text := (keyed.then lv).runs (by decide) (by decide) ending
  rw [memberText]
  exact ⟨_, _, text, .index wk wv "key", .index ak av⟩

/-- A text of members one after the other. -/
def MembersText (text : String) (members : List Member) : Prop :=
  ∃ groups : List (List Token × Member), Runs .between text (groups.flatMap (·.1)) .between ∧
    (∀ group ∈ groups, MemberTokens group.1 group.2) ∧
    List.Forall₂ MemberAgrees members (groups.map (·.2))

theorem membersText_reads {members : List Member} (depth : Nat)
    (hd : ∀ m ∈ members, DocumentedMember m) (h : ∀ m ∈ members, ∀ type ∈ m.types, Reads type) :
    MembersText (membersText depth members) members := by
  induction members with
  | nil => exact ⟨[], Runs.nil _, by simp, .nil⟩
  | cons m rest ih =>
    have first : MemberText (memberText depth m) m := by
      have inner := h m List.mem_cons_self
      cases m with
      | property name type isOptional isReadonly doc =>
        have documented : Typing.Documented doc := hd _ List.mem_cons_self
        exact memberText_property documented depth
          (inner type (List.mem_singleton_self _) depth).2
      | index key value =>
        exact memberText_index depth (inner key (by simp [Member.types]) depth).2
          (inner value (by simp [Member.types]) depth).2
    obtain ⟨tokens, read, hr, ht, ha⟩ := first
    obtain ⟨groups, later, each, agree⟩ := ih (fun t hm => hd t (List.mem_cons_of_mem _ hm))
      (fun t hm => h t (List.mem_cons_of_mem _ hm))
    refine ⟨(tokens, read) :: groups, hr.append later, ?_, .cons ha agree⟩
    intro group hm
    rcases List.mem_cons.1 hm with rfl | hm
    · exact ht
    · exact each group hm

theorem reads_object {members : List Member} (hp : Printable (.object members))
    (hd : ∀ m ∈ members, DocumentedMember m) (h : ∀ m ∈ members, ∀ type ∈ m.types, Reads type) :
    Reads (.object members) := by
  refine reads_of_operands hp fun depth => ?_
  obtain ⟨groups, hr, ht, ha⟩ := membersText_reads (depth + 1) hd h
  have text : Lexes ((TypeExpr.object members).toText depth)
      (.mark '\x7b' :: groups.flatMap (·.1) ++ [.mark '\x7d']) := by
    cases members with
    | nil =>
      cases groups with
      | nil =>
        have braces : Lexes "\x7b\x7d" [.mark '\x7b', .mark '\x7d'] := by decide
        exact braces
      | cons => cases ha
    | cons m rest =>
      have opening : Runs .between "\x7b\n" [.mark '\x7b'] .between := by decide
      have blanks : Runs .between (Text.indentation depth) [] .between := runs_indentation rfl depth
      have closing : Lexes "\x7d" [.mark '\x7d'] := by decide
      rw [membersText] at hr
      rw [toText]
      simpa [String.append_assoc] using ((opening.append hr).append blanks).then closing
  rw [conjunctsOf_of_not_intersection rfl]
  exact .single text (.object ht) (.object ha)

/-- A printable type is read back from its text. -/
theorem reads_type {type : TypeExpr} (h : Printable type) : Reads type := by
  induction h with
  | primitive kind => exact reads_of_operands (.primitive kind) fun _ => operandsText_primitive kind
  | literal finite => exact reads_of_operands (.literal finite) fun _ => operandsText_literal finite
  | ref shaped => exact reads_of_operands (.ref shaped) fun _ => operandsText_ref shaped
  | unknown note =>
    exact reads_of_operands (.unknown note) fun depth => operandsText_unknown note depth
  | array inner ih => exact reads_array inner ih
  | object documented inner ih => exact reads_object (.object documented inner) documented ih
  | union several flat inner ih => exact reads_union several flat inner ih
  | intersection several inner ih => exact reads_intersection several inner ih

end ApiTypes.Reading
