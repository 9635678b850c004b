import ApiTypes.TypeExpr.Basic
import Mathlib.Data.List.Forall2
import Mathlib.Logic.Relator

/-!
# Types that differ in names

`Renamed R a b` says that `a` and `b` are built alike and refer to names that `R` relates. When no
name is related to two, renaming keeps what is asked of types (`same_renamed`, `isSimple_renamed`,
`includesNull_renamed`) and goes through unions and intersections (`renamed_unionOf`,
`renamed_intersectionOf`). If a function gives the related names, it renames the one type to the
other (`Renamed.eq_rename`).
-/

namespace ApiTypes.TypeExpr

open Relator

mutual

/-- The types are built alike and refer to related names. -/
inductive Renamed (R : String → String → Prop) : TypeExpr → TypeExpr → Prop
  | primitive (kind : Primitive) : Renamed R (.primitive kind) (.primitive kind)
  | literal (value : Literal) : Renamed R (.literal value) (.literal value)
  | array {a b : TypeExpr} (h : Renamed R a b) : Renamed R (.array a) (.array b)
  | object {as bs : List Member} (h : RenamedMembers R as bs) : Renamed R (.object as) (.object bs)
  | union {as bs : List TypeExpr} (h : RenamedTypes R as bs) : Renamed R (.union as) (.union bs)
  | intersection {as bs : List TypeExpr} (h : RenamedTypes R as bs) :
    Renamed R (.intersection as) (.intersection bs)
  | ref {name name' : String} (h : R name name') : Renamed R (.ref name) (.ref name')
  | unknown (note : Option String) : Renamed R (.unknown note) (.unknown note)

inductive RenamedTypes (R : String → String → Prop) : List TypeExpr → List TypeExpr → Prop
  | nil : RenamedTypes R [] []
  | cons {a b : TypeExpr} {as bs : List TypeExpr} (first : Renamed R a b)
    (rest : RenamedTypes R as bs) : RenamedTypes R (a :: as) (b :: bs)

inductive RenamedMember (R : String → String → Prop) : Member → Member → Prop
  | property {a b : TypeExpr} (name : String) (isOptional isReadonly : Bool) (doc : Option Doc)
    (h : Renamed R a b) :
    RenamedMember R (.property name a isOptional isReadonly doc)
      (.property name b isOptional isReadonly doc)
  | index {key key' value value' : TypeExpr} (hk : Renamed R key key') (hv : Renamed R value value') :
    RenamedMember R (.index key value) (.index key' value')

inductive RenamedMembers (R : String → String → Prop) : List Member → List Member → Prop
  | nil : RenamedMembers R [] []
  | cons {a b : Member} {as bs : List Member} (first : RenamedMember R a b)
    (rest : RenamedMembers R as bs) : RenamedMembers R (a :: as) (b :: bs)

end

mutual

/-- The type with every name it refers to replaced. -/
def rename (f : String → String) : TypeExpr → TypeExpr
  | .primitive kind => .primitive kind
  | .literal value => .literal value
  | .array item => .array (item.rename f)
  | .object members => .object (renameMembers f members)
  | .union types => .union (renameTypes f types)
  | .intersection types => .intersection (renameTypes f types)
  | .ref name => .ref (f name)
  | .unknown note => .unknown note

def renameTypes (f : String → String) : List TypeExpr → List TypeExpr
  | [] => []
  | type :: rest => type.rename f :: renameTypes f rest

def renameMember (f : String → String) : Member → Member
  | .property name type isOptional isReadonly doc =>
    .property name (type.rename f) isOptional isReadonly doc
  | .index key value => .index (key.rename f) (value.rename f)

def renameMembers (f : String → String) : List Member → List Member
  | [] => []
  | member :: rest => renameMember f member :: renameMembers f rest

end

section
variable {R S : String → String → Prop}

theorem renamedTypes_iff {as bs : List TypeExpr} :
    RenamedTypes R as bs ↔ List.Forall₂ (Renamed R) as bs := by
  constructor
  · intro h
    induction as generalizing bs with
    | nil =>
      cases h
      exact .nil
    | cons a as ih =>
      cases h with
      | cons first rest => exact .cons first (ih rest)
  · intro h
    induction h with
    | nil => exact .nil
    | cons first _ ih => exact .cons first ih

theorem renamedMembers_iff {as bs : List Member} :
    RenamedMembers R as bs ↔ List.Forall₂ (RenamedMember R) as bs := by
  constructor
  · intro h
    induction as generalizing bs with
    | nil =>
      cases h
      exact .nil
    | cons a as ih =>
      cases h with
      | cons first rest => exact .cons first (ih rest)
  · intro h
    induction h with
    | nil => exact .nil
    | cons first _ ih => exact .cons first ih

/-! ## More names -/

mutual

theorem Renamed.mono (more : Subrelation R S) {a b : TypeExpr} :
    Renamed R a b → Renamed S a b
  | .primitive kind => .primitive kind
  | .literal value => .literal value
  | .array h => .array (h.mono more)
  | .object h => .object (h.mono more)
  | .union h => .union (h.mono more)
  | .intersection h => .intersection (h.mono more)
  | .ref h => .ref (more h)
  | .unknown note => .unknown note

theorem RenamedTypes.mono (more : Subrelation R S) {as bs : List TypeExpr} :
    RenamedTypes R as bs → RenamedTypes S as bs
  | .nil => .nil
  | .cons first rest => .cons (first.mono more) (rest.mono more)

theorem RenamedMember.mono (more : Subrelation R S) {a b : Member} :
    RenamedMember R a b → RenamedMember S a b
  | .property name isOptional isReadonly doc h =>
    .property name isOptional isReadonly doc (h.mono more)
  | .index hk hv => .index (hk.mono more) (hv.mono more)

theorem RenamedMembers.mono (more : Subrelation R S) {as bs : List Member} :
    RenamedMembers R as bs → RenamedMembers S as bs
  | .nil => .nil
  | .cons first rest => .cons (first.mono more) (rest.mono more)

end

/-! ## The renaming of a function -/

section
variable {f : String → String}

mutual

theorem Renamed.eq_rename (graph : ∀ name name', R name name' → f name = name') {a b : TypeExpr} :
    Renamed R a b → b = a.rename f
  | .primitive _ => by rw [rename]
  | .literal _ => by rw [rename]
  | .array h => by rw [rename, h.eq_rename graph]
  | .object h => by rw [rename, h.eq_rename graph]
  | .union h => by rw [rename, h.eq_rename graph]
  | .intersection h => by rw [rename, h.eq_rename graph]
  | .ref h => by rw [rename, graph _ _ h]
  | .unknown _ => by rw [rename]

theorem RenamedTypes.eq_rename (graph : ∀ name name', R name name' → f name = name')
    {as bs : List TypeExpr} : RenamedTypes R as bs → bs = renameTypes f as
  | .nil => rfl
  | .cons first rest => by rw [renameTypes, first.eq_rename graph, rest.eq_rename graph]

theorem RenamedMember.eq_rename (graph : ∀ name name', R name name' → f name = name')
    {a b : Member} : RenamedMember R a b → b = renameMember f a
  | .property _ _ _ _ h => by rw [renameMember, h.eq_rename graph]
  | .index hk hv => by rw [renameMember, hk.eq_rename graph, hv.eq_rename graph]

theorem RenamedMembers.eq_rename (graph : ∀ name name', R name name' → f name = name')
    {as bs : List Member} : RenamedMembers R as bs → bs = renameMembers f as
  | .nil => rfl
  | .cons first rest => by rw [renameMembers, first.eq_rename graph, rest.eq_rename graph]

end

end

/-! ## What renaming keeps -/

theorem isSimple_renamed {a b : TypeExpr} : Renamed R a b → a.isSimple = b.isSimple
  | .array h => by
    simp only [isSimple]
    exact isSimple_renamed h
  | .primitive _ | .literal _ | .object _ | .union _ | .intersection _ | .ref _ | .unknown _ => rfl

mutual

theorem includesNull_renamed {a b : TypeExpr} : Renamed R a b → a.includesNull = b.includesNull
  | .union h => by
    rw [includesNull, includesNull]
    exact anyIncludesNull_renamed h
  | .literal _ | .primitive _ | .array _ | .object _ | .intersection _ | .ref _ | .unknown _ => rfl

theorem anyIncludesNull_renamed {as bs : List TypeExpr} :
    RenamedTypes R as bs → anyIncludesNull as = anyIncludesNull bs
  | .nil => rfl
  | .cons first rest => by
    rw [anyIncludesNull, anyIncludesNull, includesNull_renamed first, anyIncludesNull_renamed rest]

end

theorem beq_renamed (unique : BiUnique R) {a b a' b' : String} (ha : R a a') (hb : R b b') :
    (a == b) = (a' == b') := by
  rw [Bool.eq_iff_iff, beq_iff_eq, beq_iff_eq]
  constructor
  · rintro rfl
    exact unique.2 ha hb
  · rintro rfl
    exact unique.1 ha hb

mutual

/-- Types are equal when they are after renaming. -/
theorem same_renamed (unique : BiUnique R) {a b a' b' : TypeExpr} :
    Renamed R a a' → Renamed R b b' → a.same b = a'.same b'
  | .primitive _, hb => by cases hb <;> simp only [same]
  | .literal _, hb => by cases hb <;> simp only [same]
  | .unknown _, hb => by cases hb <;> simp only [same]
  | .ref ha, hb => by
    cases hb <;> simp only [same]
    exact beq_renamed unique ha ‹_›
  | .array ha, hb => by
    cases hb <;> simp only [same]
    exact same_renamed unique ha ‹_›
  | .object ha, hb => by
    cases hb <;> simp only [same]
    exact sameMembers_renamed unique ha ‹_›
  | .union ha, hb => by
    cases hb <;> simp only [same]
    exact sameTypes_renamed unique ha ‹_›
  | .intersection ha, hb => by
    cases hb <;> simp only [same]
    exact sameTypes_renamed unique ha ‹_›

theorem sameTypes_renamed (unique : BiUnique R) {as bs as' bs' : List TypeExpr} :
    RenamedTypes R as as' → RenamedTypes R bs bs' → sameTypes as bs = sameTypes as' bs'
  | .nil, hb => by cases hb <;> simp only [sameTypes]
  | .cons first rest, hb => by
    cases hb with
    | nil => simp only [sameTypes]
    | cons first' rest' =>
      simp only [sameTypes]
      rw [same_renamed unique first first', sameTypes_renamed unique rest rest']

theorem sameMember_renamed (unique : BiUnique R) {a b a' b' : Member} :
    RenamedMember R a a' → RenamedMember R b b' → sameMember a b = sameMember a' b'
  | .property _ _ _ _ ha, hb => by
    cases hb with
    | index => simp only [sameMember]
    | property _ _ _ _ hb =>
      simp only [sameMember]
      rw [same_renamed unique ha hb]
  | .index hk hv, hb => by
    cases hb with
    | property => simp only [sameMember]
    | index hk' hv' =>
      simp only [sameMember]
      rw [same_renamed unique hk hk', same_renamed unique hv hv']

theorem sameMembers_renamed (unique : BiUnique R) {as bs as' bs' : List Member} :
    RenamedMembers R as as' → RenamedMembers R bs bs' → sameMembers as bs = sameMembers as' bs'
  | .nil, hb => by cases hb <;> simp only [sameMembers]
  | .cons first rest, hb => by
    cases hb with
    | nil => simp only [sameMembers]
    | cons first' rest' =>
      simp only [sameMembers]
      rw [sameMember_renamed unique first first', sameMembers_renamed unique rest rest']

end

/-! ## Unions and intersections -/

theorem renamed_alternatives {a b : TypeExpr} (h : Renamed R a b) :
    List.Forall₂ (Renamed R) a.alternatives b.alternatives := by
  cases h with
  | union h => exact renamedTypes_iff.1 h
  | primitive kind => exact .cons (.primitive kind) .nil
  | literal value => exact .cons (.literal value) .nil
  | array h => exact .cons (.array h) .nil
  | object h => exact .cons (.object h) .nil
  | intersection h => exact .cons (.intersection h) .nil
  | ref h => exact .cons (.ref h) .nil
  | unknown note => exact .cons (.unknown note) .nil

theorem renamed_conjuncts {a b : TypeExpr} (h : Renamed R a b) :
    List.Forall₂ (Renamed R) a.conjuncts b.conjuncts := by
  cases h with
  | intersection h => exact renamedTypes_iff.1 h
  | primitive kind => exact .cons (.primitive kind) .nil
  | literal value => exact .cons (.literal value) .nil
  | array h => exact .cons (.array h) .nil
  | object h => exact .cons (.object h) .nil
  | union h => exact .cons (.union h) .nil
  | ref h => exact .cons (.ref h) .nil
  | unknown note => exact .cons (.unknown note) .nil

section
variable {as bs : List TypeExpr}

theorem any_same_renamed (unique : BiUnique R) (h : List.Forall₂ (Renamed R) as bs)
    {a b : TypeExpr} (hab : Renamed R a b) : as.any (·.same a) = bs.any (·.same b) := by
  induction h with
  | nil => rfl
  | cons first _ ih => rw [List.any_cons, List.any_cons, same_renamed unique first hab, ih]

theorem renamed_insertNew (unique : BiUnique R) (h : List.Forall₂ (Renamed R) as bs)
    {a b : TypeExpr} (hab : Renamed R a b) :
    List.Forall₂ (Renamed R) (insertNew as a) (insertNew bs b) := by
  unfold insertNew
  rw [any_same_renamed unique h hab]
  split
  · exact h
  · exact List.rel_append h (.cons hab .nil)

theorem renamed_dedupe (unique : BiUnique R) (h : List.Forall₂ (Renamed R) as bs) :
    List.Forall₂ (Renamed R) (dedupe as) (dedupe bs) := by
  have step : (List.Forall₂ (Renamed R) ⇒ Renamed R ⇒ List.Forall₂ (Renamed R))
      insertNew insertNew :=
    fun _ _ start _ _ type => renamed_insertNew unique start type
  exact List.rel_foldl step .nil h

theorem renamed_ofAlternatives (h : List.Forall₂ (Renamed R) as bs) :
    Renamed R (ofAlternatives as) (ofAlternatives bs) := by
  cases h with
  | nil => exact .primitive .never
  | cons first rest =>
    cases rest with
    | nil => exact first
    | cons second others =>
      exact .union (renamedTypes_iff.2 (.cons first (.cons second others)))

theorem renamed_ofConjuncts (h : List.Forall₂ (Renamed R) as bs) :
    Renamed R (ofConjuncts as) (ofConjuncts bs) := by
  cases h with
  | nil => exact .unknown none
  | cons first rest =>
    cases rest with
    | nil => exact first
    | cons second others =>
      exact .intersection (renamedTypes_iff.2 (.cons first (.cons second others)))

theorem renamed_unionOf (unique : BiUnique R) (h : List.Forall₂ (Renamed R) as bs) :
    Renamed R (unionOf as) (unionOf bs) := by
  apply renamed_ofAlternatives
  apply renamed_dedupe unique
  exact List.rel_flatMap h fun _ _ => renamed_alternatives

theorem renamed_intersectionOf (h : List.Forall₂ (Renamed R) as bs) :
    Renamed R (intersectionOf as) (intersectionOf bs) := by
  apply renamed_ofConjuncts
  exact List.rel_flatMap h fun _ _ => renamed_conjuncts

end

end

end ApiTypes.TypeExpr
