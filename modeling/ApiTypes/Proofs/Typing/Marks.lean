import ApiTypes.Proofs.Typing.Preserved
import ApiTypes.Proofs.TypeExpr.Occurs

/-!
# The marks of types made

A type is marked by the references and notes in it. Typing marks a type only with names given and
with notes that were warned about, so what holds of these holds of all marks of all types made
(`marks_preserved`).
-/

namespace ApiTypes.Typing

open Schema TypeExpr

/-- All marks in a type are as said. -/
def Marks (Q : TypeExpr → Prop) (type : TypeExpr) : Prop :=
  ∀ t, IsMark t → Occurs t type → Q t

section
variable {Q : TypeExpr → Prop}

theorem marks_primitive (kind : Primitive) : Marks Q (.primitive kind) := by
  intro t mark h
  cases h
  cases mark

theorem marks_literal (value : Literal) : Marks Q (.literal value) := by
  intro t mark h
  cases h
  cases mark

theorem marks_ref {name : String} (h : Q (.ref name)) : Marks Q (.ref name) := by
  intro t _ inside
  cases inside
  exact h

theorem marks_unknown {note : String} (h : Q (.unknown (some note))) :
    Marks Q (.unknown (some note)) := by
  intro t _ inside
  cases inside
  exact h

theorem marks_object {members : List Member}
    (h : ∀ member ∈ members, ∀ type ∈ member.types, Marks Q type) : Marks Q (.object members) := by
  intro t mark inside
  obtain ⟨member, hm, type, ht, inside⟩ := mark_of_occurs_object mark inside
  exact h member hm type ht t mark inside

variable {index : Index} {state : State}

theorem marks_value (noted : ∀ note, NoteFounded index state note → Q (.unknown (some note)))
    {place : Pointer} {node value : Json} {type : TypeExpr} (stands : index.get? place = some node)
    (listed : ListedIn node value) (h : LiteralTyped state place value type) : Marks Q type := by
  have compound (parts : IsCompound value)
      (given : Noted state .unsupportedShape place
        "non-scalar literal values have no TypeScript literal form" type) : Marks Q type := by
    obtain ⟨rfl, warned⟩ := given
    exact marks_unknown (noted _ ⟨_, place, node, warned, stands, .value listed parts⟩)
  unfold LiteralTyped at h
  split at h
  case h_1 => exact h ▸ marks_literal .null
  case h_6 items => exact compound (.array items) h
  case h_7 fields => exact compound (.object fields) h
  all_goals exact h ▸ marks_literal _

/-- What holds of the names given and of the notes warned about, holds of all marks. -/
theorem marks_preserved
    (named : ∀ place name, state.names.get? place = some name → Q (.ref name))
    (noted : ∀ note, NoteFounded index state note → Q (.unknown (some note))) :
    Preserved index state (Marks Q) where
  scalar kind := by
    cases kind with
    | null => exact marks_literal .null
    | _ => exact marks_primitive _
  unknown t mark h := by
    cases h
    cases mark
  never := marks_primitive .never
  undefined := marks_primitive .undefined
  noted note h := marks_unknown (noted note h)
  value _ _ _ _ stands listed h := marks_value noted stands listed h
  named place name h := marks_ref (named place name h)
  array item hi t mark h := by
    cases h with
    | here => cases mark
    | item inside => exact hi t mark inside
  union types ht t mark h := by
    obtain ⟨type, hm, inside⟩ := mark_of_occurs_unionOf mark h
    exact ht type hm t mark inside
  intersection types ht t mark h := by
    obtain ⟨type, hm, inside⟩ := mark_of_occurs_intersectionOf mark h
    exact ht type hm t mark inside
  tagged property tag type ht t mark h := by
    cases h with
    | here => cases mark
    | conjunct member inside =>
      rcases List.mem_pair.1 member with rfl | rfl
      · refine marks_object (Q := Q) (fun m hm part hp => ?_) t mark inside
        rw [List.mem_singleton.1 hm] at hp
        exact List.mem_singleton.1 hp ▸ marks_literal _
      · exact ht t mark inside
  object keys properties signature _ hprops hsig := by
    apply marks_object
    intro m hm part hp
    rcases List.mem_append.1 hm with hm | hm
    · obtain ⟨key, -, type, _, _, _, rfl, ht, -⟩ := exists_left_of_forall₂ hprops hm
      exact List.mem_singleton.1 hp ▸ ht
    · obtain ⟨type, hsome, rfl⟩ := List.mem_map.1 hm
      rcases List.mem_pair.1 hp with rfl | rfl
      · exact marks_primitive .string
      · exact hsig part (by simpa using hsome)

end

end ApiTypes.Typing
