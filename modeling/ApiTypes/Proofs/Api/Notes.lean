import ApiTypes.Proofs.Meaning.AllowsNull

/-!
# Nothing is given up on silently

A note in a declared type is the message of a warning, and the warning is about a schema of the
document that the type was given up on for (`assemble_notes`). Types with notes are repeated,
joined and declared under names like all others, so this is a property that all ways of building a
type preserve: of the types recorded, by induction on the run, and of those declared.
-/

namespace ApiTypes.Api

open Typing Schema TypeExpr Meaning

section
variable {index : Index} {dialect : Dialect} {rawSchema : Bool} {candidates : List Candidate}
  {state : State} {declared promoted : List Declaration}
  (h : Assembled index dialect rawSchema candidates state declared promoted)
include h

/-- Every note was warned about at a place of the document, by the types there when all were made. -/
theorem Assembled.noteFounded {declaration : Declaration}
    (hm : declaration ∈ withWrapper rawSchema candidates (declared ++ promoted)) {note : String}
    (occurs : Occurs (.unknown (some note)) declaration.type) : NoteFounded index state note := by
  have mono (a b : State) (type : TypeExpr) (grows : a.Grows b)
      (founded : Marks (fun t => ∀ note, t = .unknown (some note) → NoteFounded index a note) type) :
      Marks (fun t => ∀ note, t = .unknown (some note) → NoteFounded index b note) type := by
    intro t mark inside note same
    exact (founded t mark inside note same).mono grows
  have kept (state : State) : Preserved index state
      (Marks fun t => ∀ note, t = .unknown (some note) → NoteFounded index state note) := by
    apply marks_preserved
    · rintro place name - note ⟨⟩
    · rintro note founded _ ⟨⟩
      exact founded
  have founded := h.preserved mono fun state _ => kept state
  unfold withWrapper at hm
  split at hm
  · exact (founded declaration hm).1 _ (.note note) occurs note rfl
  · rcases List.mem_append.1 hm with hm | hm
    · exact (founded declaration hm).1 _ (.note note) occurs note rfl
    · -- the wrapper is marked with names only
      rw [List.mem_singleton.1 hm] at occurs
      obtain ⟨name, same, -⟩ := mark_of_occurs_wrapper (.note note) occurs
      cases same

/-- A choice that has null by its types, when all were made, has it for a reason in the document. -/
theorem Assembled.nullAllowed {place : Pointer} {node : Json} (stands : index.get? place = some node)
    (has : ChoiceHasNull index state node place) : NullAllowed index node := by
  obtain ⟨names, start, run⟩ := h.run
  have ordered := run_ordered run (ordered_start index names)
  have formed := run_expanded (P := fun _ => WellFormed) (fun _ _ _ _ formed => formed)
    (fun state _ => wellFormed_preserved index state) run start (by simp)
  exact nullAllowed_of_choice ordered formed stands has

end

/-- Of any document that assembles: a note that occurs in a declared type, at any depth, is the
message of a warning that something is unsupported or ambiguous, and the warning points at a schema
whose keywords are given up on with that note. So without such warnings there are no notes. -/
theorem assemble_notes {index : Index} {dialect : Dialect} {rawSchema : Bool} {assembly : Assembly}
    (h : assemble index dialect rawSchema = .ok assembly) :
    (∀ declaration ∈ assembly.declarations, ∀ note, Occurs (.unknown (some note)) declaration.type →
      ∃ kind place node, ⟨kind, some place, note⟩ ∈ assembly.warnings ∧
        (kind = .unsupportedShape ∨ kind = .ambiguousShape) ∧ index.get? place = some node ∧
        Degrades node (NullAllowed index node) kind note) ∧
    ((∀ warning ∈ assembly.warnings,
        warning.kind ≠ .unsupportedShape ∧ warning.kind ≠ .ambiguousShape) →
      ∀ declaration ∈ assembly.declarations, ∀ note,
        ¬Occurs (.unknown (some note)) declaration.type) := by
  obtain ⟨_, _, declared, promoted, state, -, -, assembled, rfl⟩ := assemble_runs h
  constructor
  · intro declaration hm note occurs
    obtain ⟨kind, place, node, warned, stands, degrades⟩ := assembled.noteFounded hm occurs
    have given_up := degrades.imp (assembled.nullAllowed stands)
    exact ⟨kind, place, node, warned, degrades.kind_eq, stands, given_up⟩
  · intro silent declaration hm note occurs
    obtain ⟨kind, place, node, warned, -, degrades⟩ := assembled.noteFounded hm occurs
    obtain ⟨supported, unambiguous⟩ := silent _ warned
    rcases degrades.kind_eq with same | same
    · exact supported same
    · exact unambiguous same

/-- A schema given up on in five ways, one of them under a name and in a list of alternatives. -/
def oddSchemas : Document :=
  .ofJson (.object [
    ("swagger", .string "2.0"),
    ("paths", .object []),
    ("definitions", .object [
      ("Odd", .object [
        ("properties", .object [
          ("listed", .object [("const", .array [.bool true])]),
          ("excluded", .object [("not", .object [("type", .string "string")])]),
          ("mixed", .object [("enum", .array [.string "a"]), ("oneOf", .array [])]),
          ("nullable", .object [("nullable", .bool true), ("oneOf", .array [
            .object [("type", .string "null")], .object [("$ref", .string "#/definitions/Odd")]])]),
          ("either", .object [("anyOf", .array [.object [("if", .bool true)],
            .object [("type", .string "string")]])])])])])])

theorem assemble_notes_oddSchemas :
    ∃ assembly, assemble (indexOf oddSchemas .swagger2 false) .swagger2 false = .ok assembly ∧
      assembly.warnings.length = 5 ∧
      ∀ declaration ∈ assembly.declarations, ∀ note,
        Occurs (.unknown (some note)) declaration.type → ∃ kind place node,
          ⟨kind, some place, note⟩ ∈ assembly.warnings ∧
          (kind = .unsupportedShape ∨ kind = .ambiguousShape) ∧
          (indexOf oddSchemas .swagger2 false).get? place = some node ∧
          Degrades node (NullAllowed (indexOf oddSchemas .swagger2 false) node) kind note := by
  have computed : (assemble (indexOf oddSchemas .swagger2 false) .swagger2 false).toOption.map
      (·.warnings.length) = some 5 := by
    decide +kernel
  obtain ⟨assembly, he, warned⟩ := ok_of_computed computed
  exact ⟨assembly, he, warned, (assemble_notes he).1⟩

end ApiTypes.Api
