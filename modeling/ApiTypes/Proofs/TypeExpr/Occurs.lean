import ApiTypes.TypeExpr.Printer

/-!
# What occurs in a type

`Occurs t type` says that `t` stands somewhere in `type`, at any depth. `mem_refs_iff` shows that
`refs` lists the names of exactly the references that occur. References and notes are marks
(`IsMark`): building unions and intersections brings in no others (`mark_of_occurs_unionOf`,
`mark_of_occurs_intersectionOf`).
-/

namespace ApiTypes

/-- The types that a member holds. -/
def Member.types : Member → List TypeExpr
  | .property _ type _ _ _ => [type]
  | .index key value => [key, value]

namespace TypeExpr

theorem sizeOf_of_mem_types {type : TypeExpr} {member : Member} (h : type ∈ member.types) :
    sizeOf type < sizeOf member := by
  cases member with
  | property =>
    cases List.mem_singleton.1 h
    simp only [Member.property.sizeOf_spec]
    omega
  | index =>
    rcases List.mem_cons.1 h with rfl | h
    · simp only [Member.index.sizeOf_spec]
      omega
    · cases List.mem_singleton.1 h
      simp only [Member.index.sizeOf_spec]
      omega

inductive Occurs (t : TypeExpr) : TypeExpr → Prop
  | here : Occurs t t
  | item {item : TypeExpr} (inside : Occurs t item) : Occurs t (.array item)
  | alternative {types : List TypeExpr} {type : TypeExpr} (member : type ∈ types)
      (inside : Occurs t type) : Occurs t (.union types)
  | conjunct {types : List TypeExpr} {type : TypeExpr} (member : type ∈ types)
      (inside : Occurs t type) : Occurs t (.intersection types)
  | property {members : List Member} {name : String} {type : TypeExpr} {isOptional isReadonly : Bool}
      {doc : Option Doc} (member : .property name type isOptional isReadonly doc ∈ members)
      (inside : Occurs t type) : Occurs t (.object members)
  | key {members : List Member} {key value : TypeExpr} (member : .index key value ∈ members)
      (inside : Occurs t key) : Occurs t (.object members)
  | value {members : List Member} {key value : TypeExpr} (member : .index key value ∈ members)
      (inside : Occurs t value) : Occurs t (.object members)

/-- A type that speaks of something outside of it: a declaration, or what was warned about. -/
inductive IsMark : TypeExpr → Prop
  | ref (name : String) : IsMark (.ref name)
  | note (note : String) : IsMark (.unknown (some note))

theorem mark_of_occurs_object {t : TypeExpr} (mark : IsMark t) {members : List Member}
    (h : Occurs t (.object members)) :
    ∃ member ∈ members, ∃ type ∈ member.types, Occurs t type := by
  cases h with
  | here => cases mark
  | property member inside => exact ⟨_, member, _, List.mem_singleton_self _, inside⟩
  | key member inside => exact ⟨_, member, _, List.mem_cons_self, inside⟩
  | value member inside =>
    exact ⟨_, member, _, List.mem_cons_of_mem _ (List.mem_singleton_self _), inside⟩

theorem occurs_of_mem_types {t type : TypeExpr} {members : List Member} {member : Member}
    (hm : member ∈ members) (ht : type ∈ member.types) (inside : Occurs t type) :
    Occurs t (.object members) := by
  cases member with
  | property =>
    cases List.mem_singleton.1 ht
    exact .property hm inside
  | index =>
    rcases List.mem_cons.1 ht with rfl | ht
    · exact .key hm inside
    · cases List.mem_singleton.1 ht
      exact .value hm inside

/-! ## References -/

theorem mem_refsOfAll {name : String} {types : List TypeExpr} :
    name ∈ refsOfAll types ↔ ∃ type ∈ types, name ∈ type.refs := by
  induction types with
  | nil => simp [refsOfAll]
  | cons type rest ih => simp [refsOfAll, ih]

theorem mem_refsOfMembers {name : String} {members : List Member} :
    name ∈ refsOfMembers members ↔ ∃ member ∈ members, name ∈ refsOfMember member := by
  induction members with
  | nil => simp [refsOfMembers]
  | cons member rest ih => simp [refsOfMembers, ih]

theorem mem_refs_of_occurs {name : String} {type : TypeExpr} (h : Occurs (.ref name) type) :
    name ∈ type.refs := by
  induction h with
  | here => simp [refs]
  | item _ ih => simpa [refs] using ih
  | alternative member _ ih | conjunct member _ ih =>
    simp only [refs]
    exact mem_refsOfAll.2 ⟨_, member, ih⟩
  | property member _ ih =>
    simp only [refs]
    refine mem_refsOfMembers.2 ⟨_, member, ?_⟩
    simpa [refsOfMember] using ih
  | key member _ ih =>
    simp only [refs]
    refine mem_refsOfMembers.2 ⟨_, member, ?_⟩
    exact List.mem_append_left _ ih
  | value member _ ih =>
    simp only [refs]
    refine mem_refsOfMembers.2 ⟨_, member, ?_⟩
    exact List.mem_append_right _ ih

mutual

theorem occurs_of_mem_refs {name : String} : (type : TypeExpr) → name ∈ type.refs →
    Occurs (.ref name) type
  | .ref other, h => by
    have same : name = other := by simpa [refs] using h
    exact same ▸ .here
  | .array item, h => .item (occurs_of_mem_refs item (by simpa [refs] using h))
  | .union types, h => by
    obtain ⟨type, member, inside⟩ := occurs_of_mem_refsOfAll types (by simpa [refs] using h)
    exact .alternative member inside
  | .intersection types, h => by
    obtain ⟨type, member, inside⟩ := occurs_of_mem_refsOfAll types (by simpa [refs] using h)
    exact .conjunct member inside
  | .object members, h => occurs_of_mem_refsOfMembers members members (fun _ => id)
    (by simpa [refs] using h)
  | .primitive _, h | .literal _, h | .unknown _, h => by simp [refs] at h

theorem occurs_of_mem_refsOfAll {name : String} : (types : List TypeExpr) →
    name ∈ refsOfAll types → ∃ type ∈ types, Occurs (.ref name) type
  | [], h => by simp [refsOfAll] at h
  | type :: rest, h => by
    rcases List.mem_append.1 (by simpa only [refsOfAll] using h) with h | h
    · exact ⟨type, List.mem_cons_self, occurs_of_mem_refs type h⟩
    · obtain ⟨found, member, inside⟩ := occurs_of_mem_refsOfAll rest h
      exact ⟨found, List.mem_cons_of_mem _ member, inside⟩

theorem occurs_of_mem_refsOfMembers {name : String} (members : List Member) :
    (part : List Member) → part ⊆ members → name ∈ refsOfMembers part →
    Occurs (.ref name) (.object members)
  | [], _, h => by simp [refsOfMembers] at h
  | member :: rest, hs, h => by
    rcases List.mem_append.1 (by simpa only [refsOfMembers] using h) with h | h
    · exact occurs_of_mem_refsOfMember members member (hs List.mem_cons_self) h
    · exact occurs_of_mem_refsOfMembers members rest (fun _ hm => hs (List.mem_cons_of_mem _ hm)) h

theorem occurs_of_mem_refsOfMember {name : String} (members : List Member) :
    (member : Member) → member ∈ members → name ∈ refsOfMember member →
    Occurs (.ref name) (.object members)
  | .property _ type _ _ _, hm, h =>
    .property hm (occurs_of_mem_refs type (by simpa [refsOfMember] using h))
  | .index key value, hm, h => by
    rcases List.mem_append.1 (by simpa only [refsOfMember] using h) with h | h
    · exact .key hm (occurs_of_mem_refs key h)
    · exact .value hm (occurs_of_mem_refs value h)

end

/-- The names listed are those of the references that occur. -/
theorem mem_refs_iff {name : String} {type : TypeExpr} :
    name ∈ type.refs ↔ Occurs (.ref name) type :=
  ⟨occurs_of_mem_refs type, mem_refs_of_occurs⟩

/-! ## Unions and intersections -/

theorem alternatives_of_not_union {type : TypeExpr} (h : type.isUnion = false) :
    type.alternatives = [type] := by
  cases type with
  | union => cases h
  | _ => rfl

theorem conjuncts_of_not_intersection {type : TypeExpr} (h : type.isIntersection = false) :
    type.conjuncts = [type] := by
  cases type with
  | intersection => cases h
  | _ => rfl

/-- What is put together can be taken apart, as a single type stays as it is and is no union. -/
theorem alternatives_ofAlternatives {types : List TypeExpr} (some : types ≠ [])
    (apart : ∀ type ∈ types, type.isUnion = false) :
    alternatives (ofAlternatives types) = types := by
  match types, some, apart with
  | [type], _, apart => exact alternatives_of_not_union (apart type List.mem_cons_self)
  | _ :: _ :: _, _, _ => rfl

theorem conjuncts_ofConjuncts {types : List TypeExpr} (some : types ≠ [])
    (apart : ∀ type ∈ types, type.isIntersection = false) :
    conjuncts (ofConjuncts types) = types := by
  match types, some, apart with
  | [type], _, apart => exact conjuncts_of_not_intersection (apart type List.mem_cons_self)
  | _ :: _ :: _, _, _ => rfl

theorem mem_of_mem_insertNew {types : List TypeExpr} {type t : TypeExpr}
    (h : t ∈ insertNew types type) : t ∈ types ∨ t = type := by
  unfold insertNew at h
  split at h
  · exact .inl h
  · rcases List.mem_append.1 h with h | h
    · exact .inl h
    · exact .inr (List.mem_singleton.1 h)

theorem mem_of_mem_foldl_insertNew {types start : List TypeExpr} {t : TypeExpr}
    (h : t ∈ types.foldl insertNew start) : t ∈ start ∨ t ∈ types := by
  induction types generalizing start with
  | nil => exact .inl h
  | cons type rest ih =>
    rcases ih h with h | h
    · rcases mem_of_mem_insertNew h with h | rfl
      · exact .inl h
      · exact .inr List.mem_cons_self
    · exact .inr (List.mem_cons_of_mem _ h)

theorem mem_of_mem_dedupe {types : List TypeExpr} {t : TypeExpr} (h : t ∈ dedupe types) :
    t ∈ types :=
  (mem_of_mem_foldl_insertNew h).resolve_left List.not_mem_nil

theorem Occurs.of_alternative {t type whole : TypeExpr} (h : Occurs t type)
    (hm : type ∈ whole.alternatives) : Occurs t whole := by
  unfold alternatives at hm
  split at hm
  · exact .alternative hm h
  · rwa [← List.mem_singleton.1 hm]

theorem Occurs.of_conjunct {t type whole : TypeExpr} (h : Occurs t type)
    (hm : type ∈ whole.conjuncts) : Occurs t whole := by
  unfold conjuncts at hm
  split at hm
  · exact .conjunct hm h
  · rwa [← List.mem_singleton.1 hm]

section
variable {t : TypeExpr} (mark : IsMark t) {types : List TypeExpr}
include mark

theorem mark_of_occurs_ofAlternatives (h : Occurs t (ofAlternatives types)) :
    ∃ type ∈ types, Occurs t type := by
  unfold ofAlternatives at h
  split at h
  · cases h
    cases mark
  · exact ⟨_, List.mem_singleton_self _, h⟩
  · cases h with
    | here => cases mark
    | alternative member inside => exact ⟨_, member, inside⟩

theorem mark_of_occurs_ofConjuncts (h : Occurs t (ofConjuncts types)) :
    ∃ type ∈ types, Occurs t type := by
  unfold ofConjuncts at h
  split at h
  · cases h
    cases mark
  · exact ⟨_, List.mem_singleton_self _, h⟩
  · cases h with
    | here => cases mark
    | conjunct member inside => exact ⟨_, member, inside⟩

theorem mark_of_occurs_unionOf (h : Occurs t (unionOf types)) : ∃ type ∈ types, Occurs t type := by
  obtain ⟨type, hm, inside⟩ := mark_of_occurs_ofAlternatives mark h
  obtain ⟨whole, hw, ha⟩ := List.mem_flatMap.1 (mem_of_mem_dedupe hm)
  exact ⟨whole, hw, inside.of_alternative ha⟩

theorem mark_of_occurs_intersectionOf (h : Occurs t (intersectionOf types)) :
    ∃ type ∈ types, Occurs t type := by
  obtain ⟨type, hm, inside⟩ := mark_of_occurs_ofConjuncts mark h
  obtain ⟨whole, hw, ha⟩ := List.mem_flatMap.1 hm
  exact ⟨whole, hw, inside.of_conjunct ha⟩

end

end TypeExpr

end ApiTypes
