import ApiTypes.Proofs.Name

/-!
# Naming place after place

What holds of a table after any number of places were named in it, some of them perhaps again:

* `searchWithin_eq`: of as many numbered names as there are names in use, and one, some name is
  free, so naming a place ends (`assignWithin_eq`);
* `WellNamed`: what a name given away looks like, so that it clashes with no word of the language
  and hides no global type (`wellNamed_freshName`);
* `assignAll_records`: the table records every place with the one name it ever gets.
-/

namespace ApiTypes

namespace Text

/-- Words that are no names of declarations: the reserved words, the names of types that are built
in, and the name of the wrapper. -/
def reservedWords : List String :=
  ["paths", "any", "unknown", "never", "void", "undefined", "null", "object", "string", "number",
    "boolean", "symbol", "bigint", "true", "false", "break", "case", "catch", "class", "const",
    "continue", "debugger", "default", "delete", "do", "else", "enum", "export", "extends",
    "finally", "for", "function", "if", "implements", "import", "in", "instanceof", "interface",
    "let", "new", "package", "private", "protected", "public", "return", "static", "super",
    "switch", "this", "throw", "try", "typeof", "var", "while", "with", "yield"]

/-- What a declaration may be called. -/
structure WellNamed (name : String) : Prop where
  identifier : isIdentifier name = true
  capital : ∀ c, name.toList.head? = some c → c.isLower = false
  unreserved : name ∉ reservedWords
  unhidden : name ∉ globalTypes

theorem isIdentifier_of_typeName {name : String} (h : TypeName name) : isIdentifier name = true := by
  obtain ⟨parts, c, rest, hs, hc⟩ := h
  have start : isIdentifierStart c = true := by
    simp only [isTypeStart, Bool.and_eq_true] at hc
    exact hc.1
  rw [isIdentifier, hs]
  simp only [start, Bool.true_and, List.all_eq_true]
  exact fun d hd => parts d (hs ▸ List.mem_cons_of_mem _ hd)

theorem capital_of_typeName {name : String} (h : TypeName name) :
    ∀ c, name.toList.head? = some c → c.isLower = false := by
  obtain ⟨_, c, rest, hs, hc⟩ := h
  intro d hd
  rw [hs, List.head?_cons, Option.some.injEq] at hd
  subst hd
  simp only [isTypeStart, Bool.and_eq_true, Bool.not_eq_true'] at hc
  exact hc.2

theorem reservedWords_lower :
    ∀ word ∈ reservedWords, ∃ c, word.toList.head? = some c ∧ c.isLower = true := by
  have all : reservedWords.all (fun word => (word.toList.head?.map Char.isLower).getD false) :=
    by decide
  intro word hm
  have lower := List.all_eq_true.1 all word hm
  cases hh : word.toList.head? with
  | none => simp [hh] at lower
  | some c => exact ⟨c, rfl, by simpa [hh] using lower⟩

theorem not_global_of_underscore {name : String} (h : '_' ∈ name.toList) : name ∉ globalTypes := by
  have none : ∀ word ∈ globalTypes, '_' ∉ word.toList := by decide
  exact fun hm => none name hm h

theorem not_global_typeName (text : String) : typeName text ∉ globalTypes := by
  simp only [typeName]
  split
  · exact not_global_of_underscore (by simp)
  · rename_i unmarked
    simp only [needsMark, Bool.or_eq_true, List.contains_eq_mem, decide_eq_true_eq, not_or]
      at unmarked
    exact unmarked.2

theorem wellNamed_of_typeName {name : String} (h : TypeName name) (unhidden : name ∉ globalTypes) :
    WellNamed name := by
  refine ⟨isIdentifier_of_typeName h, capital_of_typeName h, ?_, unhidden⟩
  intro hm
  obtain ⟨c, hc, lower⟩ := reservedWords_lower name hm
  rw [capital_of_typeName h c hc] at lower
  cases lower

end Text

namespace NameTable

open Text

/-! ## The search for a free name -/

/-- The first of `bound` candidates from number `n` on that is not in use. -/
def searchWithin (candidate : Nat → String) (used : List String) : (bound n : Nat) → Option String
  | 0, _ => none
  | bound + 1, n =>
    if candidate n ∈ used then searchWithin candidate used bound (n + 1) else some (candidate n)

/-- Names in use that no candidate from number `n` on can be do not matter. -/
theorem searchWithin_congr {candidate : Nat → String} {used others : List String} {n : Nat}
    (h : ∀ m, n ≤ m → (candidate m ∈ used ↔ candidate m ∈ others)) (bound : Nat) :
    searchWithin candidate used bound n = searchWithin candidate others bound n := by
  induction bound generalizing n with
  | zero => rfl
  | succ bound ih =>
    simp only [searchWithin, h n (Nat.le_refl n)]
    rw [ih fun m hm => h m (by omega)]

/-- As the candidates differ, one of them is free. -/
theorem searchWithin_eq {candidate : Nat → String}
    (hc : ∀ i j, candidate i = candidate j → i = j) (used : List String) (n : Nat) {bound : Nat}
    (enough : used.length < bound) :
    searchWithin candidate used bound n = some (firstFree candidate used n) := by
  fun_induction firstFree candidate used n generalizing bound with
  | case1 used n taken ih =>
    cases bound with
    | zero => omega
    | succ bound =>
      have shorter := List.length_erase_of_mem taken
      have := List.length_pos_of_mem taken
      have later : ∀ m, n + 1 ≤ m →
          (candidate m ∈ used ↔ candidate m ∈ used.erase (candidate n)) := by
        intro m hm
        have other : candidate m ≠ candidate n := fun e => by
          have := hc m n e
          omega
        rw [List.mem_erase_of_ne other]
      rw [searchWithin, if_pos taken, searchWithin_congr later, ih (by omega)]
  | case2 used n free =>
    cases bound with
    | zero => omega
    | succ bound => rw [searchWithin, if_neg free]

/-- Names a place after `base`, looking at no more than `bound` numbered names. -/
def assignWithin (bound : Nat) (table : NameTable) (place : Pointer) (base : String) :
    Option (String × NameTable) :=
  match table.get? place with
  | some name => some (name, table)
  | none =>
    let plain := typeName base
    let long := plain ++ "_" ++ pathSuffix place
    let name :=
      if plain ∈ table.taken then
        if long ∈ table.taken then
          searchWithin (fun n => long ++ toString n) table.taken bound 2
        else some long
      else some plain
    name.map fun name => (name, ⟨table.entries ++ [(place, name)]⟩)

theorem assignWithin_eq (table : NameTable) (place : Pointer) (base : String) {bound : Nat}
    (enough : table.entries.length < bound) :
    assignWithin bound table place base = some (table.assign place base) := by
  have search := searchWithin_eq (numbered_injective (typeName base ++ "_" ++ pathSuffix place))
    table.taken 2 (by rwa [taken, List.length_map])
  unfold assignWithin assign
  cases table.get? place with
  | some name => rfl
  | none =>
    simp only [freshName, search]
    split
    · split
      · rfl
      · rfl
    · rfl

/-! ## Names given -/

theorem wellNamed_freshName (table : NameTable) (place : Pointer) (base : String) :
    WellNamed (table.freshName place base) := by
  refine wellNamed_of_typeName (typeName_freshName table place base) ?_
  rcases (table.freshName_cases place base).2 with same | same | ⟨n, same⟩
  · rw [same]
    exact not_global_typeName base
  · rw [same]
    exact not_global_of_underscore (by simp)
  · rw [same]
    exact not_global_of_underscore (by simp)

section
variable (table : NameTable) (place : Pointer) (base : String)

theorem assign_extends : table.entries <+: (table.assign place base).2.entries := by
  cases h : table.get? place with
  | some name => simp [assign_of_some base h]
  | none => simp [assign_of_none base h, extended]

theorem get?_assign : (table.assign place base).2.get? place = some (table.assign place base).1 := by
  cases h : table.get? place with
  | some name => rw [assign_of_some base h, h]
  | none => rw [assign_of_none base h, get?_extended base h]

theorem mem_taken_assign {name : String} : name ∈ (table.assign place base).2.taken ↔
    name ∈ table.taken ∨ name = (table.assign place base).1 := by
  cases h : table.get? place with
  | some known =>
    rw [assign_of_some base h]
    have given : known ∈ table.taken := List.mem_map_of_mem (f := (·.2)) (mem_of_get? h)
    constructor
    · exact .inl
    · rintro (h | rfl)
      · exact h
      · exact given
  | none =>
    rw [assign_of_none base h]
    simp [extended, taken]

theorem length_assign : (table.assign place base).2.entries.length ≤ table.entries.length + 1 := by
  cases h : table.get? place with
  | some name =>
    rw [assign_of_some base h]
    exact Nat.le_succ _
  | none =>
    rw [assign_of_none base h]
    simp [extended]

end

/-! ## Place after place -/

/-- Names places in order, each after its base, and gives the names they got. -/
def assignAll (table : NameTable) : List (Pointer × String) → List String × NameTable
  | [] => ([], table)
  | (place, base) :: rest =>
    let named := table.assign place base
    let later := named.2.assignAll rest
    (named.1 :: later.1, later.2)

theorem assignAll_extends (table : NameTable) (calls : List (Pointer × String)) :
    table.entries <+: (table.assignAll calls).2.entries := by
  induction calls generalizing table with
  | nil => exact List.prefix_rfl
  | cons call rest ih => exact (assign_extends table call.1 call.2).trans (ih _)

theorem assignAll_valid {table : NameTable} (hv : table.Valid) (calls : List (Pointer × String)) :
    (table.assignAll calls).2.Valid := by
  induction calls generalizing table with
  | nil => exact hv
  | cons call rest ih => exact ih (assign_valid hv call.1 call.2)

theorem length_names_assignAll (table : NameTable) (calls : List (Pointer × String)) :
    (table.assignAll calls).1.length = calls.length := by
  induction calls generalizing table with
  | nil => rfl
  | cons call rest ih => simp [assignAll, ih]

theorem length_assignAll (table : NameTable) (calls : List (Pointer × String)) :
    (table.assignAll calls).2.entries.length ≤ table.entries.length + calls.length := by
  induction calls generalizing table with
  | nil => exact Nat.le_refl _
  | cons call rest ih =>
    have one := length_assign table call.1 call.2
    have others := ih (table.assign call.1 call.2).2
    rw [List.length_cons]
    simp only [assignAll]
    omega

theorem mem_taken_assignAll (table : NameTable) (calls : List (Pointer × String)) {name : String} :
    name ∈ (table.assignAll calls).2.taken ↔
      name ∈ table.taken ∨ name ∈ (table.assignAll calls).1 := by
  induction calls generalizing table with
  | nil => simp [assignAll]
  | cons call rest ih => simp only [assignAll, ih, mem_taken_assign, List.mem_cons, or_assoc]

/-- The name a call gave is the one its place has from then on. -/
theorem get?_assignAll (table : NameTable) {calls : List (Pointer × String)} {n : Nat}
    {place : Pointer} {base name : String} (hc : calls[n]? = some (place, base))
    (hn : (table.assignAll calls).1[n]? = some name) :
    (table.assignAll calls).2.get? place = some name := by
  induction calls generalizing table n with
  | nil => cases hc
  | cons call rest ih =>
    cases n with
    | zero =>
      cases hc
      cases hn
      exact get?_mono (assignAll_extends _ rest) (get?_assign table place base)
    | succ n => exact ih _ hc hn

theorem wellNamed_assign (table : NameTable) (place : Pointer) (base : String)
    (h : ∀ name ∈ table.taken, WellNamed name) :
    ∀ name ∈ (table.assign place base).2.taken, WellNamed name := by
  cases hp : table.get? place with
  | some known => rwa [assign_of_some base hp]
  | none =>
    intro name hm
    rcases (mem_taken_assign table place base).1 hm with hm | rfl
    · exact h name hm
    · rw [assign_of_none base hp]
      exact wellNamed_freshName table place base

theorem wellNamed_assignAll (table : NameTable) (calls : List (Pointer × String))
    (h : ∀ name ∈ table.taken, WellNamed name) :
    ∀ name ∈ (table.assignAll calls).2.taken, WellNamed name := by
  induction calls generalizing table with
  | nil => exact h
  | cons call rest ih => exact ih _ (wellNamed_assign table call.1 call.2 h)

/-- What a table records of calls that named places and of the names they gave. -/
structure Records (calls : List (Pointer × String)) (names : List String) (table : NameTable) :
    Prop where
  /-- Every call gave a name. -/
  answered : names.length = calls.length
  /-- Different places have different names. -/
  distinct : ∀ p q name, table.get? p = some name → table.get? q = some name → p = q
  /-- Whatever is named afterwards, the place of a call has the name that the call gave, and gets
  it again when it is named again. -/
  lasting : ∀ (n : Nat) place base name, calls[n]? = some (place, base) → names[n]? = some name →
    ∀ more base', ((table.assignAll more).2.get? place = some name ∧
      (table.assignAll more).2.assign place base' = (name, (table.assignAll more).2))
  /-- The names in use are the names given. -/
  taken : ∀ name, table.isTaken name = true ↔ name ∈ names
  /-- The next call ends, too. -/
  ends : ∀ place base,
    assignWithin (calls.length + 1) table place base = some (table.assign place base)
  shaped : ∀ name ∈ names, WellNamed name

/-- A table in which any places were named, in any order, records their names. -/
theorem assignAll_records (calls : List (Pointer × String)) :
    Records calls (assignAll {} calls).1 (assignAll {} calls).2 where
  answered := length_names_assignAll {} calls
  distinct p q name hp hq := (assignAll_valid valid_empty calls).place_unique hp hq
  lasting n place base name hc hn more base' := by
    have known := get?_mono (assignAll_extends _ more) (get?_assignAll {} hc hn)
    exact ⟨known, assign_of_some base' known⟩
  taken name := by
    rw [isTaken, List.contains_iff_mem, mem_taken_assignAll]
    simp [NameTable.taken]
  ends place base := by
    have := length_assignAll {} calls
    exact assignWithin_eq _ place base (by simp at this; omega)
  shaped name hm := by
    have given := (mem_taken_assignAll {} calls).2 (.inr hm)
    exact wellNamed_assignAll {} calls (by simp [NameTable.taken]) name given

end NameTable

end ApiTypes
