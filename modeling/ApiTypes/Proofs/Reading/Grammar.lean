import ApiTypes.Proofs.Reading.Literal
import ApiTypes.Proofs.Reading.Parser

/-!
# Reading the tokens of a type

What the parser makes of tokens that others follow: an `Operand` is read as far as the marks `[]`
behind it go, a `Conjunction` up to what is no `&`, a `Whole` type up to what is no `|` either.
Operands make a conjunction (`Conjunction.of_operands`), conjunctions a whole type
(`Whole.of_conjunctions`), and a whole type in parentheses is an operand again
(`Whole.parenthesized`).
-/

namespace ApiTypes.Reading

/-! ## Operands with marks between them -/

/-- Groups of tokens with a mark between them. -/
def between (c : Char) (groups : List (List Token)) : List Token :=
  List.intercalate [.mark c] groups

theorem between_cons {c : Char} (first : List Token) {groups : List (List Token)}
    (h : groups ≠ []) : between c (first :: groups) = first ++ .mark c :: between c groups := by
  simp [between, List.intercalate_cons_of_ne_nil h]

theorem between_singleton (c : Char) (group : List Token) : between c [group] = group :=
  List.intercalate_singleton

theorem length_le_between {c : Char} {groups : List (List Token)} {group : List Token}
    (h : group ∈ groups) : group.length ≤ (between c groups).length := by
  induction groups with
  | nil => cases h
  | cons first rest ih =>
    by_cases hne : rest = []
    · subst hne
      simp [List.mem_singleton.1 h, between_singleton]
    · rw [between_cons first hne, List.length_append, List.length_cons]
      rcases List.mem_cons.1 h with rfl | h
      · omega
      · have := ih h
        omega

/-- Every group has at least one token. -/
theorem count_le_between {c : Char} {groups : List (List Token)} (h : ∀ group ∈ groups, group ≠ []) :
    groups.length ≤ (between c groups).length := by
  induction groups with
  | nil => exact Nat.zero_le _
  | cons first rest ih =>
    have later := ih fun group hm => h group (List.mem_cons_of_mem _ hm)
    have some : 0 < first.length := List.length_pos_iff.2 (h first List.mem_cons_self)
    by_cases hne : rest = []
    · subst hne
      rw [between_singleton]
      exact some
    · rw [between_cons first hne, List.length_append, List.length_cons, List.length_cons]
      omega

theorem between_append {c : Char} {a b : List (List Token)} (ha : a ≠ []) (hb : b ≠ []) :
    between c (a ++ b) = between c a ++ .mark c :: between c b := by
  induction a with
  | nil => exact absurd rfl ha
  | cons first rest ih =>
    by_cases hne : rest = []
    · subst hne
      rw [between_singleton]
      exact between_cons first hb
    · rw [List.cons_append, between_cons _ (List.append_ne_nil_of_left_ne_nil hne b), ih hne,
        between_cons _ hne, List.append_assoc, List.cons_append]

theorem between_ne_nil {c : Char} {groups : List (List Token)} (hne : groups ≠ [])
    (h : ∀ group ∈ groups, group ≠ []) : between c groups ≠ [] := by
  have := count_le_between (c := c) h
  have := List.length_pos_iff.2 hne
  exact List.length_pos_iff.1 (by omega)

theorem after?_mark (c : Char) (rest : List Token) : after? c (.mark c :: rest) = some rest := by
  simp [after?]

theorem separated_between {α : Type} {operand : Reader α} {c : Char} {stops : List Token → Prop}
    {groups : List (List Token × α)}
    (reads : ∀ group ∈ groups, ∀ rest, stops rest → operand (group.1 ++ rest) = some (group.2, rest))
    (next : ∀ rest, stops (.mark c :: rest)) (hne : groups ≠ []) {rest : List Token}
    (hs : stops rest) (hr : after? c rest = none) {fuel : Nat} (hf : groups.length ≤ fuel) :
    separated operand c fuel (between c (groups.map (·.1)) ++ rest) =
      some (groups.map (·.2), rest) := by
  induction groups generalizing fuel with
  | nil => exact absurd rfl hne
  | cons first others ih =>
    obtain ⟨left, rfl⟩ := Nat.exists_eq_succ_of_ne_zero (n := fuel) (by simp at hf; omega)
    have here := reads first List.mem_cons_self
    by_cases last : others = []
    · subst last
      rw [List.map_singleton, between_singleton, separated, here rest hs]
      simp [hr]
    · have later : separated operand c left (between c (others.map (·.1)) ++ rest) = _ :=
        ih (fun group hm => reads group (List.mem_cons_of_mem _ hm)) last (by simpa using hf)
      rw [List.map_cons, between_cons _ (by simpa using last), List.append_assoc, List.cons_append,
        separated, here _ (next _)]
      simp [after?_mark, later]

/-! ## Levels -/

/-- Tokens that are read as an operand, with the arrays that the tokens behind make of it. -/
structure Operand (tokens : List Token) (type : TypeExpr) : Prop where
  nonempty : tokens ≠ []
  reads : ∀ depth fuel rest, tokens.length ≤ depth + 1 → tokens.length ≤ fuel →
    operand (typeWithin depth) (members (typeWithin depth) fuel) (tokens ++ rest) =
      some (arrays type rest)

/-- Tokens that are read as operands of `&`. -/
structure Conjunction (tokens : List Token) (type : TypeExpr) : Prop where
  nonempty : tokens ≠ []
  reads : ∀ depth fuel rest, tokens.length ≤ depth + 1 → tokens.length ≤ fuel →
    after? '[' rest = none → after? '&' rest = none →
    conjunction (typeWithin depth) (members (typeWithin depth) fuel) (tokens ++ rest) =
      some (type, rest)

/-- Tokens that are read as a type. -/
structure Whole (tokens : List Token) (type : TypeExpr) : Prop where
  nonempty : tokens ≠ []
  reads : ∀ depth rest, tokens.length ≤ depth →
    after? '[' rest = none → after? '&' rest = none → after? '|' rest = none →
    typeWithin depth (tokens ++ rest) = some (type, rest)

theorem arrays_stop {type : TypeExpr} {rest : List Token} (h : after? '[' rest = none) :
    arrays type rest = (type, rest) := by
  fun_cases arrays type rest with
  | case1 rest => simp [after?] at h
  | case2 rest => rfl

theorem Operand.array {tokens : List Token} {type : TypeExpr} (h : Operand tokens type) :
    Operand (tokens ++ [.mark '[', .mark ']']) (.array type) where
  nonempty := List.append_ne_nil_of_left_ne_nil h.nonempty _
  reads depth fuel rest hd hf := by
    rw [List.length_append] at hd hf
    rw [List.append_assoc, h.reads depth fuel _ (by omega) (by omega)]
    rfl

theorem Conjunction.of_operands {groups : List (List Token × TypeExpr)} (hne : groups ≠ [])
    (h : ∀ group ∈ groups, Operand group.1 group.2) :
    Conjunction (between '&' (groups.map (·.1))) (joined .intersection (groups.map (·.2))) := by
  have nonempty : ∀ group ∈ groups.map (·.1), group ≠ [] := by
    intro tokens hm
    obtain ⟨group, hg, rfl⟩ := List.mem_map.1 hm
    exact (h group hg).nonempty
  refine ⟨between_ne_nil (by simpa using hne) nonempty, fun depth fuel rest hd hf array next => ?_⟩
  have operands : ∀ group ∈ groups, ∀ rest, after? '[' rest = none →
      operand (typeWithin depth) (members (typeWithin depth) fuel) (group.1 ++ rest) =
        some (group.2, rest) := by
    intro group hg rest hr
    have short : group.1.length ≤ (between '&' (groups.map (·.1))).length :=
      length_le_between (List.mem_map_of_mem hg)
    rw [(h group hg).reads depth fuel rest (by omega) (by omega), arrays_stop hr]
  have count := count_le_between (c := '&') nonempty
  rw [List.length_map] at count
  unfold conjunction
  rw [separated_between operands (fun rest => rfl) hne array next
    (by rw [List.length_append]; omega)]
  rfl

theorem Whole.of_conjunctions {groups : List (List Token × TypeExpr)} (hne : groups ≠ [])
    (h : ∀ group ∈ groups, Conjunction group.1 group.2) :
    Whole (between '|' (groups.map (·.1))) (joined .union (groups.map (·.2))) := by
  have nonempty : ∀ group ∈ groups.map (·.1), group ≠ [] := by
    intro tokens hm
    obtain ⟨group, hg, rfl⟩ := List.mem_map.1 hm
    exact (h group hg).nonempty
  have some := between_ne_nil (c := '|') (by simpa using hne) nonempty
  refine ⟨some, fun depth rest hd array conjunct next => ?_⟩
  have positive := List.length_pos_iff.2 some
  obtain ⟨inner, rfl⟩ := Nat.exists_eq_succ_of_ne_zero (n := depth) (by omega)
  rw [typeWithin]
  generalize hfuel : (between '|' (groups.map (·.1)) ++ rest).length = fuel
  rw [List.length_append] at hfuel
  have conjunctions : ∀ group ∈ groups, ∀ rest, after? '[' rest = none ∧ after? '&' rest = none →
      conjunction (typeWithin inner) (members (typeWithin inner) fuel) (group.1 ++ rest) =
        .some (group.2, rest) := by
    intro group hg rest ⟨ha, hc⟩
    have short : group.1.length ≤ (between '|' (groups.map (·.1))).length :=
      length_le_between (List.mem_map_of_mem hg)
    exact (h group hg).reads inner fuel rest (by omega) (by omega) ha hc
  have count := count_le_between (c := '|') nonempty
  rw [List.length_map] at count
  unfold alternation
  rw [separated_between conjunctions (fun rest => ⟨rfl, rfl⟩) hne ⟨array, conjunct⟩ next
    (by rw [List.length_append]; omega)]
  rfl

/-- A whole type in parentheses is an operand. -/
theorem Whole.parenthesized {tokens : List Token} {type : TypeExpr} (h : Whole tokens type) :
    Operand (.mark '(' :: tokens ++ [.mark ')']) type where
  nonempty := by simp
  reads depth fuel rest hd hf := by
    have shorter : tokens.length ≤ depth := by
      rw [List.length_append, List.length_cons] at hd
      omega
    have inside := h.reads depth (.mark ')' :: rest) shorter rfl rfl rfl
    rw [List.append_assoc, List.cons_append, List.singleton_append, operand, primary, inside]
    simp [after?_mark]

theorem Operand.word (name : String) : Operand [.word name] (wordType name) where
  nonempty := by simp
  reads depth fuel rest _ _ := by simp [operand, primary]

theorem Operand.quoted (text : String) : Operand [.quoted text] (.literal (.string text)) where
  nonempty := by simp
  reads depth fuel rest _ _ := by simp [operand, primary]

theorem Operand.numeral {token : Token} {literal : Literal} (negative : Bool)
    (h : numeral? negative token = some literal) :
    Operand ((if negative then [.mark '-'] else []) ++ [token]) (.literal literal) where
  nonempty := by simp
  reads depth fuel rest _ _ := by
    cases negative with
    | true => simp [operand, primary, h]
    | false =>
      cases token with
      | whole | decimal =>
        simp [operand, primary, h]
      | word | quoted | mark => cases h

/-! ## Members -/

/-- Tokens that are read as a member, up to the mark that ends it. -/
structure MemberTokens (tokens : List Token) (m : Member) : Prop where
  nonempty : tokens ≠ []
  reads : ∀ depth rest, tokens.length ≤ depth →
    member (typeWithin depth) (tokens ++ rest) = some (m, rest)
  opens : ∀ rest, after? '\x7d' (tokens ++ rest) = none

theorem key?_keyToken (name : String) : key? (keyToken name) = some name := by
  unfold keyToken
  split <;> rfl

/-- The tokens before the type of a property. -/
def propertyTokens (name : String) (isOptional isReadonly : Bool) : List Token :=
  (if isReadonly then [.word "readonly"] else []) ++
    keyToken name :: if isOptional then [.mark '?', .mark ':'] else [.mark ':']

theorem MemberTokens.property {tokens : List Token} {type : TypeExpr} (h : Whole tokens type)
    (name : String) (isOptional isReadonly : Bool) :
    MemberTokens (propertyTokens name isOptional isReadonly ++ tokens ++ [.mark ';'])
      (.property name type isOptional isReadonly none) where
  nonempty := by simp
  reads depth rest hd := by
    have shorter : tokens.length ≤ depth := by
      rw [List.length_append, List.length_append] at hd
      omega
    have inside := h.reads depth (.mark ';' :: rest) shorter rfl rfl rfl
    have key := key?_keyToken name
    unfold propertyTokens
    unfold keyToken at key ⊢
    cases isReadonly <;> cases isOptional <;> by_cases word : Text.isIdentifier name = true <;>
      simp [member, readonlyMark, optionalMark, word, key?, after?, inside]
  opens rest := by
    unfold propertyTokens keyToken
    cases isReadonly <;> by_cases word : Text.isIdentifier name = true <;> simp [after?, word]

theorem MemberTokens.index {ofKey ofValue : List Token} {key value : TypeExpr}
    (hk : Whole ofKey key) (hv : Whole ofValue value) (name : String) :
    MemberTokens ([.mark '[', .word name, .mark ':'] ++ ofKey ++ [.mark ']', .mark ':'] ++ ofValue ++
      [.mark ';']) (.index key value) where
  nonempty := by simp
  reads depth rest hd := by
    simp only [List.length_append] at hd
    have first := hk.reads depth (.mark ']' :: .mark ':' :: (ofValue ++ .mark ';' :: rest))
      (by omega) rfl rfl rfl
    have second := hv.reads depth (.mark ';' :: rest) (by omega) rfl rfl rfl
    simp [member, after?, first, second]
  opens rest := by simp [after?]

theorem members_read {groups : List (List Token × Member)}
    (h : ∀ group ∈ groups, MemberTokens group.1 group.2) (depth fuel : Nat) (rest : List Token)
    (hd : (groups.flatMap (·.1)).length ≤ depth) (hf : groups.length < fuel) :
    members (typeWithin depth) fuel (groups.flatMap (·.1) ++ .mark '\x7d' :: rest) =
      some (groups.map (·.2), rest) := by
  induction groups generalizing fuel with
  | nil =>
    obtain ⟨left, rfl⟩ := Nat.exists_eq_succ_of_ne_zero (n := fuel) (by omega)
    simp [members, after?_mark]
  | cons first others ih =>
    obtain ⟨left, rfl⟩ := Nat.exists_eq_succ_of_ne_zero (n := fuel) (by omega)
    have here := h first List.mem_cons_self
    rw [List.flatMap_cons, List.length_append] at hd
    have later : members (typeWithin depth) left _ = _ :=
      ih (fun group hm => h group (List.mem_cons_of_mem _ hm)) left (by omega) (by simpa using hf)
    rw [List.flatMap_cons, List.append_assoc, members, here.opens,
      here.reads depth _ (by omega)]
    simp [later]

theorem count_le_flatMap {groups : List (List Token × Member)}
    (h : ∀ group ∈ groups, MemberTokens group.1 group.2) :
    groups.length ≤ (groups.flatMap (·.1)).length := by
  induction groups with
  | nil => exact Nat.zero_le _
  | cons first rest ih =>
    have later := ih fun group hm => h group (List.mem_cons_of_mem _ hm)
    have some := List.length_pos_iff.2 (h first List.mem_cons_self).nonempty
    rw [List.flatMap_cons, List.length_append, List.length_cons]
    omega

theorem Operand.object {groups : List (List Token × Member)}
    (h : ∀ group ∈ groups, MemberTokens group.1 group.2) :
    Operand (.mark '\x7b' :: groups.flatMap (·.1) ++ [.mark '\x7d'])
      (.object (groups.map (·.2))) where
  nonempty := by simp
  reads depth fuel rest hd hf := by
    have count := count_le_flatMap h
    simp only [List.length_append, List.length_cons, List.length_nil] at hd hf
    have inside := members_read h depth fuel rest (by omega) (by omega)
    rw [List.append_assoc, List.cons_append, List.singleton_append, operand, primary, inside]
    rfl

end ApiTypes.Reading
