import ApiTypes.Declaration.Basic
import ApiTypes.Proofs.TypeExpr.Occurs
import Mathlib.Data.List.Lex

/-!
# Names without a declaration

The parts of a type are numbered in the order they are written, and so every place in it has a path
of such numbers. One place comes before another if its path is smaller in the order of words. Told
in these terms, for any declarations whatever, the closure check finds the first reference to a name
that is not declared:

* `occurs_iff_at?`: what occurs in a type is what stands at its places;
* `undeclared?_eq_some_iff`: the name found in one type is that of its first such reference;
* `verifyClosure_eq_ok_iff`: the check succeeds if there are no such references;
* `verifyClosure_exact`: and it fails on the first one in the first declaration with any.
-/

namespace ApiTypes

namespace TypeExpr

/-! ## Places in a type -/

/-- The types that a type is put together from, in the order they are written. -/
def parts : TypeExpr → List TypeExpr
  | .array item => [item]
  | .union types => types
  | .intersection types => types
  | .object members => members.flatMap Member.types
  | .primitive _ => []
  | .literal _ => []
  | .ref _ => []
  | .unknown _ => []

/-- The type at a path, each number of which picks one of the parts. -/
def at? (type : TypeExpr) : List Nat → Option TypeExpr
  | [] => some type
  | n :: path => type.parts[n]?.bind fun part => part.at? path

theorem sizeOf_of_mem_parts {type part : TypeExpr} (h : part ∈ type.parts) :
    sizeOf part < sizeOf type := by
  cases type with
  | array item =>
    cases List.mem_singleton.1 h
    simp only [array.sizeOf_spec]
    omega
  | union types =>
    have := List.sizeOf_lt_of_mem (show part ∈ types from h)
    simp only [union.sizeOf_spec]
    omega
  | intersection types =>
    have := List.sizeOf_lt_of_mem (show part ∈ types from h)
    simp only [intersection.sizeOf_spec]
    omega
  | object members =>
    obtain ⟨member, hm, ht⟩ := List.mem_flatMap.1 h
    have := List.sizeOf_lt_of_mem hm
    have := sizeOf_of_mem_types ht
    simp only [object.sizeOf_spec]
    omega
  | primitive | literal | ref | unknown => cases h

theorem at?_cons_eq_some_iff {type t : TypeExpr} {n : Nat} {path : List Nat} :
    type.at? (n :: path) = some t ↔ ∃ part, type.parts[n]? = some part ∧ part.at? path = some t :=
  Option.bind_eq_some_iff

theorem exists_at?_of_part {type part t : TypeExpr} (hm : part ∈ type.parts)
    (inside : ∃ path, part.at? path = some t) : ∃ path, type.at? path = some t := by
  obtain ⟨n, hn⟩ := List.mem_iff_getElem?.1 hm
  obtain ⟨path, stands⟩ := inside
  exact ⟨n :: path, at?_cons_eq_some_iff.2 ⟨part, hn, stands⟩⟩

theorem occurs_of_part {type part t : TypeExpr} (hm : part ∈ type.parts) (inside : Occurs t part) :
    Occurs t type := by
  cases type with
  | array item =>
    cases List.mem_singleton.1 hm
    exact .item inside
  | union => exact .alternative hm inside
  | intersection => exact .conjunct hm inside
  | object =>
    obtain ⟨member, hm, ht⟩ := List.mem_flatMap.1 hm
    exact occurs_of_mem_types hm ht inside
  | primitive | literal | ref | unknown => cases hm

theorem occurs_iff_at? {type t : TypeExpr} : Occurs t type ↔ ∃ path, type.at? path = some t := by
  constructor
  · intro h
    induction h with
    | here => exact ⟨[], rfl⟩
    | item _ ih => exact exists_at?_of_part (List.mem_singleton_self _) ih
    | alternative member _ ih => exact exists_at?_of_part member ih
    | conjunct member _ ih => exact exists_at?_of_part member ih
    | property member _ ih =>
      exact exists_at?_of_part (List.mem_flatMap.2 ⟨_, member, List.mem_singleton_self _⟩) ih
    | key member _ ih =>
      exact exists_at?_of_part (List.mem_flatMap.2 ⟨_, member, List.mem_cons_self⟩) ih
    | value member _ ih =>
      refine exists_at?_of_part (List.mem_flatMap.2 ⟨_, member, ?_⟩) ih
      exact List.mem_cons_of_mem _ (List.mem_singleton_self _)
  · rintro ⟨path, h⟩
    induction path generalizing type with
    | nil =>
      cases h
      exact .here
    | cons n path ih =>
      obtain ⟨part, hn, h⟩ := at?_cons_eq_some_iff.1 h
      exact occurs_of_part (List.mem_of_getElem? hn) (ih h)

/-! ## Names in turn -/

theorem refsOfAll_eq_flatMap (types : List TypeExpr) : refsOfAll types = types.flatMap refs := by
  induction types with
  | nil => rfl
  | cons type rest ih => rw [refsOfAll, ih, List.flatMap_cons]

theorem refsOfMember_eq_flatMap (member : Member) :
    refsOfMember member = member.types.flatMap refs := by
  cases member <;> simp [refsOfMember, Member.types]

theorem refsOfMembers_eq_flatMap (members : List Member) :
    refsOfMembers members = (members.flatMap Member.types).flatMap refs := by
  induction members with
  | nil => rfl
  | cons member rest ih =>
    rw [refsOfMembers, ih, refsOfMember_eq_flatMap, List.flatMap_cons, List.flatMap_append]

/-- A type that is no reference has the references of its parts, part by part. -/
theorem refs_eq_flatMap {type : TypeExpr} (whole : ∀ name, type ≠ .ref name) :
    type.refs = type.parts.flatMap refs := by
  cases type with
  | ref name => exact absurd rfl (whole name)
  | array item => simp [refs, parts]
  | union types => simpa only [refs, parts] using refsOfAll_eq_flatMap types
  | intersection types => simpa only [refs, parts] using refsOfAll_eq_flatMap types
  | object members => simpa only [refs, parts] using refsOfMembers_eq_flatMap members
  | primitive | literal | unknown => rfl

end TypeExpr

namespace Declaration

open TypeExpr

/-! ## In one type -/

/-- Every reference in the type is to one of the names. -/
def Closed (declared : List String) (type : TypeExpr) : Prop :=
  ∀ name, Occurs (.ref name) type → name ∈ declared

/-- At the path stands the first reference that is to none of the names. -/
structure FirstUndeclared (declared : List String) (type : TypeExpr) (path : List Nat)
    (name : String) : Prop where
  stands : type.at? path = some (.ref name)
  undeclared : name ∉ declared
  first : ∀ before other, List.Lex (· < ·) before path → type.at? before = some (.ref other) →
    other ∈ declared

variable {declared : List String} {type : TypeExpr} {path : List Nat} {name : String}

theorem undeclared?_eq_none_iff : undeclared? declared type = none ↔ Closed declared type := by
  simp [undeclared?, Closed, mem_refs_iff]

theorem undeclared?_ref : undeclared? declared (.ref name) = some name ↔ name ∉ declared := by
  simp [undeclared?, refs]

/-- The first name of a type is that of the first part with any. -/
theorem undeclared?_eq_findSome? (whole : ∀ name, type ≠ .ref name) :
    undeclared? declared type = type.parts.findSome? (undeclared? declared) := by
  rw [undeclared?, refs_eq_flatMap whole, List.find?_flatMap]
  rfl

/-- What is first in a part is first in the type, if nothing is found in the parts before. -/
theorem FirstUndeclared.of_part {part : TypeExpr} {before after : List TypeExpr}
    (whole : ∀ name, type ≠ .ref name) (split : type.parts = before ++ part :: after)
    (closed : ∀ other ∈ before, Closed declared other)
    (h : FirstUndeclared declared part path name) :
    FirstUndeclared declared type (before.length :: path) name where
  stands := at?_cons_eq_some_iff.2 ⟨part, by simp [split], h.stands⟩
  undeclared := h.undeclared
  first := by
    intro earlier other smaller stands
    cases smaller with
    | nil => exact absurd (Option.some.inj stands) (whole other)
    | @rel n rest _ _ less =>
      obtain ⟨inner, hn, stands⟩ := at?_cons_eq_some_iff.1 stands
      rw [split, List.getElem?_append_left less] at hn
      exact closed inner (List.mem_of_getElem? hn) other (occurs_iff_at?.2 ⟨rest, stands⟩)
    | cons smaller =>
      obtain ⟨inner, hn, stands⟩ := at?_cons_eq_some_iff.1 stands
      rw [split, List.getElem?_append_right (Nat.le_refl _), Nat.sub_self] at hn
      cases hn
      exact h.first _ other smaller stands

/-- A name that is found is that of the first reference, by recursion into the part it is found in. -/
theorem exists_firstUndeclared (type : TypeExpr) (found : undeclared? declared type = some name) :
    ∃ path, FirstUndeclared declared type path name := by
  by_cases leaf : ∃ other, type = .ref other
  · obtain ⟨other, rfl⟩ := leaf
    have same : other = name := by
      have hm : name ∈ [other] := List.mem_of_find?_eq_some found
      exact (List.mem_singleton.1 hm).symm
    subst same
    refine ⟨[], rfl, undeclared?_ref.1 found, fun before _ smaller => ?_⟩
    cases smaller
  · have whole : ∀ other, type ≠ .ref other := fun other same => leaf ⟨other, same⟩
    rw [undeclared?_eq_findSome? whole] at found
    obtain ⟨before, part, after, split, found, none⟩ := List.findSome?_eq_some_iff.1 found
    have hm : part ∈ type.parts := by simp [split]
    obtain ⟨path, first⟩ := exists_firstUndeclared part found
    exact ⟨_, first.of_part whole split fun other ho => undeclared?_eq_none_iff.1 (none other ho)⟩
termination_by sizeOf type
decreasing_by exact sizeOf_of_mem_parts hm

/-- There is no more than one first reference, as of two paths one would be smaller. -/
theorem FirstUndeclared.unique {path' : List Nat} {name' : String}
    (h : FirstUndeclared declared type path name)
    (h' : FirstUndeclared declared type path' name') : name = name' := by
  rcases lt_trichotomy path path' with smaller | rfl | smaller
  · exact absurd (h'.first path name smaller h.stands) h.undeclared
  · have same := h.stands.symm.trans h'.stands
    cases same
    rfl
  · exact absurd (h.first path' name' smaller h'.stands) h'.undeclared

theorem undeclared?_eq_some_iff : undeclared? declared type = some name ↔
    ∃ path, FirstUndeclared declared type path name := by
  constructor
  · exact exists_firstUndeclared type
  · rintro ⟨path, first⟩
    cases found : undeclared? declared type with
    | none =>
      have closed := undeclared?_eq_none_iff.1 found
      exact absurd (closed name (occurs_iff_at?.2 ⟨path, first.stands⟩)) first.undeclared
    | some other =>
      obtain ⟨path', first'⟩ := exists_firstUndeclared type found
      rw [first'.unique first]

/-! ## In all declarations -/

variable {declarations : List Declaration} {error : CompileError}

/-- The error says where the first declaration with an undeclared name was made, and the name of the
first such reference in its type. -/
inductive FirstDangling (declarations : List Declaration) : CompileError → Prop
  | mk {earlier later : List Declaration} {declaration : Declaration} {path : List Nat}
      {name : String} (split : declarations = earlier ++ declaration :: later)
      (closed : ∀ other ∈ earlier, Closed (declarations.map (·.name)) other.type)
      (first : FirstUndeclared (declarations.map (·.name)) declaration.type path name) :
      FirstDangling declarations (.danglingReference name declaration.pointer)

/-- The error that a declaration with an undeclared name stands for. -/
def dangling? (declared : List String) (declaration : Declaration) : Option CompileError :=
  (undeclared? declared declaration.type).map fun name =>
    .danglingReference name declaration.pointer

theorem dangling?_eq_none_iff {declaration : Declaration} :
    dangling? declared declaration = none ↔ Closed declared declaration.type := by
  rw [dangling?, Option.map_eq_none_iff, undeclared?_eq_none_iff]

theorem dangling?_eq_some_iff {declaration : Declaration} :
    dangling? declared declaration = some error ↔
      ∃ path name, FirstUndeclared declared declaration.type path name ∧
        .danglingReference name declaration.pointer = error := by
  rw [dangling?, Option.map_eq_some_iff]
  simp only [undeclared?_eq_some_iff]
  exact ⟨fun ⟨name, ⟨path, first⟩, same⟩ => ⟨path, name, first, same⟩,
    fun ⟨path, name, first, same⟩ => ⟨name, ⟨path, first⟩, same⟩⟩

theorem verifyClosure_eq (declarations : List Declaration) :
    verifyClosure declarations =
      match declarations.findSome? (dangling? (declarations.map (·.name))) with
      | some error => .error error
      | none => .ok () :=
  rfl

theorem verifyClosure_eq_ok_iff : verifyClosure declarations = .ok () ↔
    ∀ declaration ∈ declarations, Closed (declarations.map (·.name)) declaration.type := by
  have searched : verifyClosure declarations = .ok () ↔
      declarations.findSome? (dangling? (declarations.map (·.name))) = none := by
    rw [verifyClosure_eq]
    split <;> simp [*]
  rw [searched, List.findSome?_eq_none_iff]
  simp only [dangling?_eq_none_iff]

theorem verifyClosure_eq_error_iff : verifyClosure declarations = .error error ↔
    FirstDangling declarations error := by
  have searched : verifyClosure declarations = .error error ↔
      declarations.findSome? (dangling? (declarations.map (·.name))) = some error := by
    rw [verifyClosure_eq]
    split <;> simp [*]
  rw [searched, List.findSome?_eq_some_iff]
  constructor
  · rintro ⟨earlier, declaration, later, split, found, none⟩
    obtain ⟨path, name, first, rfl⟩ := dangling?_eq_some_iff.1 found
    exact .mk split (fun other ho => dangling?_eq_none_iff.1 (none other ho)) first
  · rintro ⟨split, closed, first⟩
    refine ⟨_, _, _, split, dangling?_eq_some_iff.2 ⟨_, _, first, rfl⟩, fun other ho => ?_⟩
    exact dangling?_eq_none_iff.2 (closed other ho)

/-- The closure check is exact, for any declarations: it succeeds if every reference that occurs in
their types is to one of their names, and else it fails on the first that is not, in the order of the
declarations and within a type from left to right. -/
theorem verifyClosure_exact (declarations : List Declaration) :
    (verifyClosure declarations = .ok () ↔
      ∀ declaration ∈ declarations, Closed (declarations.map (·.name)) declaration.type) ∧
    ∀ error, verifyClosure declarations = .error error ↔ FirstDangling declarations error :=
  ⟨verifyClosure_eq_ok_iff, fun _ => verifyClosure_eq_error_iff⟩

/-- The keys of an index are written before its values. -/
example :
    verifyClosure [⟨"Pet", ⟨["Pet"]⟩, .schema,
      .object [.plain "self" (.ref "Pet") true, .index (.ref "Key") (.array (.ref "Ghost"))], none⟩] =
      .error (.danglingReference "Key" ⟨["Pet"]⟩) := rfl

end Declaration

end ApiTypes
