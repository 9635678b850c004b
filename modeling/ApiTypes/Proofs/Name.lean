import ApiTypes.NameTable
import ApiTypes.Proofs.Place
import Mathlib.Data.List.Nodup

/-!
# Names

What the name table guarantees:

* `TypeName`: the shape of every name given, so that none is a word with a small first letter;
* `freshName_not_mem`: a name given to a new place is new;
* `NameTable.Valid`, `assign_valid`: no place and no name occurs twice in a table;
* `assign_of_none`, `assign_of_some`: naming a place adds that place at the end, or nothing if it has
  a name.
-/

namespace ApiTypes

namespace Text

/-- Characters a declaration's name may start with: those of an identifier, but no small letter. -/
def isTypeStart (c : Char) : Bool :=
  isIdentifierStart c && !c.isLower

/-- An identifier that starts with no small letter. -/
structure TypeName (name : String) : Prop where
  parts : ∀ c ∈ name.toList, isIdentifierPart c = true
  start : ∃ c rest, name.toList = c :: rest ∧ isTypeStart c = true

theorem isLower_iff {c : Char} : c.isLower = true ↔ 97 ≤ c.toNat ∧ c.toNat ≤ 122 := by
  change (decide (c.val ≥ 'a'.val) && decide (c.val ≤ 'z'.val)) = true ↔ _
  simp only [Bool.and_eq_true, decide_eq_true_eq, ge_iff_le, UInt32.le_iff_toNat_le]
  exact Iff.rfl

theorem isUpper_iff {c : Char} : c.isUpper = true ↔ 65 ≤ c.toNat ∧ c.toNat ≤ 90 := by
  change decide (c.val ≥ 'A'.val ∧ c.val ≤ 'Z'.val) = true ↔ _
  simp only [decide_eq_true_eq, ge_iff_le, UInt32.le_iff_toNat_le]
  exact Iff.rfl

theorem isDigit_iff {c : Char} : c.isDigit = true ↔ 48 ≤ c.toNat ∧ c.toNat ≤ 57 := by
  simp only [Char.isDigit, Bool.and_eq_true, decide_eq_true_eq, ge_iff_le,
    UInt32.le_iff_toNat_le]
  exact Iff.rfl

theorem isIdentifierStart_iff {c : Char} : isIdentifierStart c = true ↔
    65 ≤ c.toNat ∧ c.toNat ≤ 90 ∨ 97 ≤ c.toNat ∧ c.toNat ≤ 122 ∨ c.toNat = 95 ∨ c.toNat = 36 := by
  have eq_iff (d : Char) : c = d ↔ c.toNat = d.toNat := ⟨fun h => by rw [h], Char.toNat_inj.1⟩
  have letter : isLetter c = true ↔ c.isUpper = true ∨ c.isLower = true :=
    Bool.or_eq_true_iff
  have underscore : '_'.toNat = 95 := rfl
  have dollar : '$'.toNat = 36 := rfl
  simp only [isIdentifierStart, Bool.or_eq_true, beq_iff_eq, letter, isUpper_iff, isLower_iff,
    eq_iff, underscore, dollar]
  omega

theorem isIdentifierPart_iff {c : Char} :
    isIdentifierPart c = true ↔ isIdentifierStart c = true ∨ c.isDigit = true := by
  simp [isIdentifierPart]

theorem toNat_toUpper (c : Char) :
    c.toUpper.toNat = if 97 ≤ c.toNat ∧ c.toNat ≤ 122 then c.toNat - 32 else c.toNat := by
  have small : (c.val ≥ 'a'.val ∧ c.val ≤ 'z'.val) ↔ 97 ≤ c.toNat ∧ c.toNat ≤ 122 := by
    simp only [ge_iff_le, UInt32.le_iff_toNat_le]
    exact Iff.rfl
  unfold Char.toUpper
  split
  · rename_i h
    have hn := small.1 h
    rw [if_pos hn]
    change (c.val + ('A'.val - 'a'.val)).toNat = c.toNat - 32
    rw [UInt32.toNat_add, show ('A'.val - 'a'.val).toNat = 2 ^ 32 - 32 by decide]
    have : c.val.toNat = c.toNat := rfl
    omega
  · rename_i h
    rw [if_neg fun hn => h (small.2 hn)]

theorem isIdentifierPart_toUpper {c : Char} (h : isIdentifierPart c = true) :
    isIdentifierPart c.toUpper = true := by
  rw [isIdentifierPart_iff, isIdentifierStart_iff, isDigit_iff] at h ⊢
  rw [toNat_toUpper]
  split <;> omega

theorem isTypeStart_toUpper {c : Char} (h : isIdentifierPart c = true)
    (hd : c.toUpper.isDigit = false) : isTypeStart c.toUpper = true := by
  have start := (isIdentifierPart_iff.1 (isIdentifierPart_toUpper h)).resolve_right (by simp [hd])
  have large : ¬ c.toUpper.isLower = true := by
    rw [isLower_iff, toNat_toUpper]
    split <;> omega
  simp [isTypeStart, start, large]

theorem mem_pieces {separates : Char → Bool} {text piece : List Char} {c : Char}
    (h : piece ∈ pieces separates text) (hc : c ∈ piece) : separates c = false := by
  induction text generalizing piece with
  | nil =>
    simp only [pieces, List.mem_singleton] at h
    subst h
    cases hc
  | cons head rest ih =>
    simp only [pieces] at h
    split at h
    · rcases List.mem_cons.1 h with rfl | h
      · cases hc
      · exact ih h hc
    · rename_i hs
      cases hp : pieces separates rest with
      | nil => simp [hp] at h
      | cons first others =>
        simp only [hp, List.modifyHead_cons, List.mem_cons] at h
        rcases h with rfl | h
        · rcases List.mem_cons.1 hc with rfl | hc
          · simpa using hs
          · exact ih (by simp [hp]) hc
        · exact ih (by simp [hp, h]) hc

theorem mem_capitalized {word : List Char} {c : Char} (h : c ∈ capitalized word) :
    c ∈ word ∨ ∃ d ∈ word, c = d.toUpper := by
  cases word with
  | nil => cases h
  | cons d rest =>
    rcases List.mem_cons.1 h with rfl | h
    · exact .inr ⟨d, List.mem_cons_self, rfl⟩
    · exact .inl (List.mem_cons_of_mem _ h)

theorem part_of_mem_piece {text : String} {piece : List Char} {c : Char}
    (h : piece ∈ pieces (fun c => !isIdentifierPart c) text.toList) (hc : c ∈ piece) :
    isIdentifierPart c = true := by
  simpa using mem_pieces h hc

theorem isIdentifierPart_of_mem_camelCase {text : String} {c : Char}
    (h : c ∈ (camelCase text).toList) : isIdentifierPart c = true := by
  rw [camelCase, String.toList_ofList, List.mem_flatMap] at h
  obtain ⟨piece, hp, hc⟩ := h
  rcases mem_capitalized hc with hc | ⟨d, hd, rfl⟩
  · exact part_of_mem_piece hp hc
  · exact isIdentifierPart_toUpper (part_of_mem_piece hp hd)

/-- The first character of capitalised words that are not all empty is a capitalised one. -/
theorem exists_toUpper_of_flatMap_capitalized {words : List (List Char)} {c : Char}
    {rest : List Char} (h : words.flatMap capitalized = c :: rest) :
    ∃ word ∈ words, ∃ d ∈ word, c = d.toUpper := by
  induction words with
  | nil => cases h
  | cons word words ih =>
    cases word with
    | nil =>
      obtain ⟨word, hw, hd⟩ := ih h
      exact ⟨word, List.mem_cons_of_mem _ hw, hd⟩
    | cons d tail =>
      simp only [List.flatMap_cons, capitalized, List.cons_append, List.cons.injEq] at h
      exact ⟨_, List.mem_cons_self, d, List.mem_cons_self, h.1.symm⟩

theorem typeName_typeName (text : String) : TypeName (typeName text) := by
  simp only [typeName]
  split
  · refine ⟨?_, '_', (camelCase text).toList, by simp, by decide⟩
    intro c hc
    simp only [String.toList_append, List.mem_append] at hc
    rcases hc with hc | hc
    · rw [show c = '_' by simpa using hc]
      decide
    · exact isIdentifierPart_of_mem_camelCase hc
  · rename_i hm
    refine ⟨fun c hc => isIdentifierPart_of_mem_camelCase hc, ?_⟩
    cases hn : (camelCase text).toList with
    | nil => simp [needsMark, hn] at hm
    | cons c rest =>
      refine ⟨c, rest, rfl, ?_⟩
      have hd : c.isDigit = false := by
        simp only [needsMark, hn, Bool.or_eq_true, not_or, Bool.not_eq_true] at hm
        exact hm.1
      rw [camelCase, String.toList_ofList] at hn
      obtain ⟨word, hw, d, hc, rfl⟩ := exists_toUpper_of_flatMap_capitalized hn
      exact isTypeStart_toUpper (part_of_mem_piece hw hc) hd

/-- More identifier characters behind a name leave it one. -/
theorem TypeName.append {name tail : String} (h : TypeName name)
    (ht : ∀ c ∈ tail.toList, isIdentifierPart c = true) : TypeName (name ++ tail) := by
  obtain ⟨hp, c, rest, hs, hc⟩ := h
  refine ⟨?_, c, rest ++ tail.toList, by simp [hs], hc⟩
  intro d hd
  rw [String.toList_append, List.mem_append] at hd
  exact hd.elim (hp d) (ht d)

theorem TypeName.ne_of_lower {name word : String} {c : Char} {rest : List Char}
    (h : TypeName name) (hw : word.toList = c :: rest) (hl : c.isLower = true) : name ≠ word := by
  rintro rfl
  obtain ⟨_, d, tail, hs, hd⟩ := h
  rw [hw] at hs
  cases hs
  simp [isTypeStart, hl] at hd

end Text

namespace NameTable

open Text

/-- No place and no name occurs twice, and all names are names of types. -/
structure Valid (table : NameTable) : Prop where
  places : (table.entries.map (·.1)).Nodup
  names : table.taken.Nodup
  shaped : ∀ name ∈ table.taken, TypeName name

theorem valid_empty : Valid {} :=
  ⟨List.nodup_nil, List.nodup_nil, by simp [taken]⟩

/-! ## Fresh names -/

/-- The search ends at a candidate, and at none in use. -/
theorem firstFree_fresh {candidate : Nat → String}
    (hc : ∀ i j, candidate i = candidate j → i = j) (used : List String) (n : Nat) :
    ∃ m, n ≤ m ∧ firstFree candidate used n = candidate m ∧ candidate m ∉ used := by
  fun_induction firstFree candidate used n with
  | case1 used n taken ih =>
    obtain ⟨m, hm, he, hf⟩ := ih
    refine ⟨m, by omega, he, ?_⟩
    have hne : candidate m ≠ candidate n := fun h => by
      have := hc m n h
      omega
    rwa [List.mem_erase_of_ne hne] at hf
  | case2 used n free => exact ⟨n, Nat.le_refl n, rfl, free⟩

theorem numbered_injective (base : String) (i j : Nat)
    (h : base ++ toString i = base ++ toString j) : i = j := by
  have hl := congrArg String.toList h
  simp only [String.toList_append] at hl
  exact toString_injective (String.ext (List.append_cancel_left hl))

/-- A fresh name is not in use. It is the base, or the base with the path, or that with a number. -/
theorem freshName_cases (table : NameTable) (place : Pointer) (base : String) :
    table.freshName place base ∉ table.taken ∧
      (table.freshName place base = typeName base ∨
        table.freshName place base = typeName base ++ "_" ++ pathSuffix place ∨
        ∃ n : Nat, table.freshName place base =
          typeName base ++ "_" ++ pathSuffix place ++ toString n) := by
  simp only [freshName]
  split
  · split
    · obtain ⟨m, -, he, fresh⟩ := firstFree_fresh
        (numbered_injective (typeName base ++ "_" ++ pathSuffix place)) table.taken 2
      rw [he]
      exact ⟨fresh, .inr (.inr ⟨m, rfl⟩)⟩
    · rename_i fresh
      exact ⟨fresh, .inr (.inl rfl)⟩
  · rename_i fresh
    exact ⟨fresh, .inl rfl⟩

theorem freshName_not_mem (table : NameTable) (place : Pointer) (base : String) :
    table.freshName place base ∉ table.taken :=
  (table.freshName_cases place base).1

theorem isIdentifierPart_of_mem_toString {n : Nat} {c : Char} (h : c ∈ (toString n).toList) :
    isIdentifierPart c = true := by
  rw [Nat.toString_eq_ofList_toDigits, String.toList_ofList] at h
  simp [isIdentifierPart, Nat.isDigit_of_mem_toDigits (by decide) (by decide) h]

theorem isIdentifierPart_of_mem_pathSuffix {place : Pointer} {c : Char}
    (h : c ∈ (pathSuffix place).toList) : isIdentifierPart c = true := by
  rw [pathSuffix, String.toList_ofList] at h
  exact (typeName_typeName _).parts c (List.dropWhile_sublist _ |>.mem h)

theorem typeName_freshName (table : NameTable) (place : Pointer) (base : String) :
    TypeName (table.freshName place base) := by
  have plain := typeName_typeName base
  have long : TypeName (typeName base ++ "_" ++ pathSuffix place) := by
    refine (plain.append ?_).append fun c hc => isIdentifierPart_of_mem_pathSuffix hc
    intro c hc
    rw [show c = '_' by simpa using hc]
    decide
  rcases (table.freshName_cases place base).2 with same | same | ⟨n, same⟩
  · rw [same]
    exact plain
  · rw [same]
    exact long
  · rw [same]
    exact long.append fun c hc => isIdentifierPart_of_mem_toString hc

/-! ## Look-up -/

theorem mem_of_get? {table : NameTable} {place : Pointer} {name : String}
    (h : table.get? place = some name) : (place, name) ∈ table.entries :=
  mem_of_lookup h

theorem get?_eq_none_iff {table : NameTable} {place : Pointer} :
    table.get? place = none ↔ place ∉ table.entries.map (·.1) := by
  simp only [get?, List.lookup_eq_none_iff, List.mem_map, not_exists, not_and, Prod.forall,
    bne_iff_ne]
  exact ⟨fun h p n hm e => h p n hm e.symm, fun h p n hm e => h p n hm e.symm⟩

theorem get?_append (table : NameTable) (entries : List (Pointer × String)) (place : Pointer) :
    NameTable.get? ⟨table.entries ++ entries⟩ place =
      (table.get? place).or (entries.lookup place) := by
  simp [get?, List.lookup_append]

theorem get?_mono {table later : NameTable} (h : table.entries <+: later.entries)
    {place : Pointer} {name : String} (hn : table.get? place = some name) :
    later.get? place = some name := by
  obtain ⟨entries, he⟩ := h
  rw [show later = ⟨table.entries ++ entries⟩ by rw [he], get?_append, hn, Option.some_or]

theorem Valid.get?_of_mem {table : NameTable} (hv : table.Valid) {place : Pointer} {name : String}
    (h : (place, name) ∈ table.entries) : table.get? place = some name :=
  lookup_of_mem hv.places h

/-- No two places have the same name. -/
theorem Valid.place_unique {table : NameTable} (hv : table.Valid) {p q : Pointer} {name : String}
    (hp : table.get? p = some name) (hq : table.get? q = some name) : p = q := by
  have same : (p, name) = (q, name) := List.inj_on_of_nodup_map (f := Prod.snd) hv.names
    (mem_of_get? hp) (mem_of_get? hq) rfl
  exact congrArg Prod.fst same

/-! ## Naming a place -/

/-- The table after giving a place without a name one. -/
def extended (table : NameTable) (place : Pointer) (base : String) : NameTable :=
  ⟨table.entries ++ [(place, table.freshName place base)]⟩

theorem assign_of_none {table : NameTable} {place : Pointer} (base : String)
    (h : table.get? place = none) :
    table.assign place base = (table.freshName place base, table.extended place base) := by
  simp [assign, h, extended]

theorem assign_of_some {table : NameTable} {place : Pointer} {name : String} (base : String)
    (h : table.get? place = some name) : table.assign place base = (name, table) := by
  simp [assign, h]

theorem get?_extended {table : NameTable} {place : Pointer} (base : String)
    (h : table.get? place = none) :
    (table.extended place base).get? place = some (table.freshName place base) := by
  simp [extended, get?_append, h]

theorem get?_extended_of_ne {table : NameTable} {place other : Pointer} (base : String)
    (h : other ≠ place) : (table.extended place base).get? other = table.get? other := by
  simp [extended, get?_append, List.lookup_cons, beq_false_of_ne h]

theorem Valid.extended {table : NameTable} (hv : table.Valid) {place : Pointer} (base : String)
    (h : table.get? place = none) : (table.extended place base).Valid := by
  obtain ⟨hp, hn, hs⟩ := hv
  refine ⟨?_, ?_, ?_⟩
  · simp only [NameTable.extended, List.map_append, List.map_cons, List.map_nil]
    refine List.nodup_append.2 ⟨hp, by simp, ?_⟩
    intro p hm q hq e
    rw [List.mem_singleton.1 hq] at e
    exact get?_eq_none_iff.1 h (e ▸ hm)
  · simp only [NameTable.extended, taken, List.map_append, List.map_cons, List.map_nil]
    refine List.nodup_append.2 ⟨hn, by simp, ?_⟩
    intro p hm q hq e
    rw [List.mem_singleton.1 hq] at e
    exact freshName_not_mem table place base (e ▸ hm)
  · intro name hm
    simp only [NameTable.extended, taken, List.map_append, List.map_cons, List.map_nil,
      List.mem_append, List.mem_singleton] at hm
    rcases hm with hm | rfl
    · exact hs name hm
    · exact typeName_freshName table place base

theorem assign_valid {table : NameTable} (hv : table.Valid) (place : Pointer) (base : String) :
    (table.assign place base).2.Valid := by
  cases h : table.get? place with
  | none => rw [assign_of_none base h]; exact hv.extended base h
  | some name => rw [assign_of_some base h]; exact hv

end NameTable

end ApiTypes
