import ApiTypes.Compile
import ApiTypes.Proofs.Api.Closure

/-!
# Errors and warnings

Assembly warns about places of the document only, and fails only on a reference that leads nowhere
or from reference to reference back to itself (`assemble_reports`).
-/

namespace ApiTypes.Api

open Relation Typing

/-- A reference stands at the place. -/
def ReferenceAt (index : Index) (place : Pointer) (reference : String) : Prop :=
  ∃ fields, index.get? place = some (.object fields) ∧
    fields.lookup "$ref" = some (.string reference)

theorem referenceAt_iff {index : Index} {place : Pointer} {reference : String} :
    ReferenceAt index place reference ↔
      ∃ node, index.get? place = some node ∧ Schema.reference? node = some reference := by
  constructor
  · rintro ⟨fields, hn, hr⟩
    exact ⟨.object fields, hn, by simp [Schema.reference?, Json.text?, Json.get?, hr, Json.string?]⟩
  · rintro ⟨node, hn, hr⟩
    obtain ⟨value, hv, ht⟩ := Option.bind_eq_some_iff.1 hr
    have text : value = .string reference := by
      cases value <;> simp [Json.string?] at ht
      rw [ht]
    cases node with
    | object fields => exact ⟨fields, hn, text ▸ hv⟩
    | _ => simp [Json.get?] at hv

theorem resolve_error_iff {index : Index} {place : Pointer} {reference : String} :
    (∃ error, index.resolve reference place = .error error) ↔
      (Pointer.ofReference? reference).bind index.locate? = none := by
  unfold Index.resolve
  split
  · rename_i target found
    simp [found]
  · rename_i missing
    simp [missing]

/-- Of any document, raw or not:

* every warning is about a place of the document;
* an error is about a reference of the document, at the place where it stands, which leads nowhere
  or lies on a chain of references that comes back to it;
* where every reference leads somewhere and no such chain exists, assembly succeeds. -/
theorem assemble_reports (index : Index) (dialect : Dialect) (rawSchema : Bool) :
    (∀ assembly, assemble index dialect rawSchema = .ok assembly →
      ∀ warning ∈ assembly.warnings, ∃ place, warning.pointer = some place ∧
        (index.get? place).isSome) ∧
    (∀ error, assemble index dialect rawSchema = .error error →
      ∃ reference place, error = .unresolvedReference reference place ∧
        ReferenceAt index place reference ∧
        ((∃ failure, index.resolve reference place = .error failure) ∨
          TransGen index.Link place place)) ∧
    ((∀ place reference, ReferenceAt index place reference →
        ∃ target, index.resolve reference place = .ok target) →
      (∀ place, ¬ TransGen index.Link place place) →
      ∃ assembly, assemble index dialect rawSchema = .ok assembly) := by
  rcases assemble_ends index dialect rawSchema with
    ⟨error, he, broken⟩ | ⟨_, _, _, _, _, -, -, h, he⟩
  · obtain ⟨reference, place, node, rfl, hn, hr, cause⟩ := broken
    have stands := referenceAt_iff.2 ⟨node, hn, hr⟩
    rw [he]
    refine ⟨fun assembly h => (by cases h), ?_, ?_⟩
    · intro error h
      cases h
      exact ⟨reference, place, rfl, stands, cause.imp_left resolve_error_iff.2⟩
    · intro resolves acyclic
      rcases cause with missing | cycle
      · obtain ⟨target, ht⟩ := resolves place reference stands
        obtain ⟨failure, hf⟩ := resolve_error_iff.2 missing
        rw [ht] at hf
        cases hf
      · exact absurd cycle (acyclic place)
  · rw [he]
    refine ⟨?_, fun error h => (by cases h), fun _ _ => ⟨_, rfl⟩⟩
    intro assembly ha
    cases ha
    exact h.valid.warned

/-- A bare map of two schemas: one that no type expresses, and a reference to it. -/
def linkedSchemas : Document :=
  .ofJson (.object
    [("A", .object [("not", .object [])]),
      ("B", .object [("$ref", .string "#/definitions/A")])])

/-- A bare map of one schema, which refers to itself by a name that is not there. -/
def lostSchema : Document :=
  .ofJson (.object [("A", .object [("$ref", .string "#/definitions/B")])])

theorem reference_of_linkedSchemas {place : Pointer} {node : Json} {reference : String}
    (hn : (indexOf linkedSchemas .swagger2 true).get? place = some node)
    (hr : Schema.reference? node = some reference) :
    place = ⟨["B"]⟩ ∧ reference = "#/definitions/A" := by
  have all : ∀ location ∈ (indexOf linkedSchemas .swagger2 true).locations,
      Schema.reference? location.2 = none ∨
        location.1 = ⟨["B"]⟩ ∧ Schema.reference? location.2 = some "#/definitions/A" := by
    decide +kernel
  rcases all _ (Index.mem_locations hn) with none | ⟨hp, hs⟩
  · rw [hr] at none
    cases none
  · rw [hr] at hs
    cases hs
    exact ⟨hp, rfl⟩

theorem link_of_linkedSchemas {source target : Pointer}
    (h : (indexOf linkedSchemas .swagger2 true).Link source target) :
    source = ⟨["B"]⟩ ∧ target = ⟨["A"]⟩ := by
  obtain ⟨node, reference, found, hn, hr, hf, rfl⟩ := h
  obtain ⟨hp, rfl⟩ := reference_of_linkedSchemas hn hr
  refine ⟨hp, ?_⟩
  have leads : ((Pointer.ofReference? "#/definitions/A").bind
      (indexOf linkedSchemas .swagger2 true).locate?).map (·.pointer) = some ⟨["A"]⟩ := by
    decide +kernel
  rw [hf] at leads
  simpa using leads

theorem assemble_reports_linkedSchemas :
    (∃ assembly, assemble (indexOf linkedSchemas .swagger2 true) .swagger2 true = .ok assembly ∧
      assembly.warnings ≠ [] ∧ ∀ warning ∈ assembly.warnings, ∃ place,
        warning.pointer = some place ∧
          ((indexOf linkedSchemas .swagger2 true).get? place).isSome) ∧
    ∃ error, assemble (indexOf lostSchema .swagger2 true) .swagger2 true = .error error ∧
      ∃ reference place, error = .unresolvedReference reference place ∧
        ReferenceAt (indexOf lostSchema .swagger2 true) place reference := by
  constructor
  · have resolves : ∀ place reference,
        ReferenceAt (indexOf linkedSchemas .swagger2 true) place reference →
          ∃ target, (indexOf linkedSchemas .swagger2 true).resolve reference place = .ok target := by
      intro place reference stands
      obtain ⟨node, hn, hr⟩ := referenceAt_iff.1 stands
      obtain ⟨rfl, rfl⟩ := reference_of_linkedSchemas hn hr
      have leads : ((indexOf linkedSchemas .swagger2 true).resolve "#/definitions/A"
          ⟨["B"]⟩).isOk = true := by
        decide +kernel
      cases hres : (indexOf linkedSchemas .swagger2 true).resolve "#/definitions/A" ⟨["B"]⟩ with
      | ok target => exact ⟨target, rfl⟩
      | error error =>
        rw [hres] at leads
        cases leads
    have acyclic : ∀ place, ¬ TransGen (indexOf linkedSchemas .swagger2 true).Link place place := by
      intro place cycle
      obtain ⟨next, first, -⟩ := TransGen.head'_iff.1 cycle
      obtain ⟨last, -, final⟩ := TransGen.tail'_iff.1 cycle
      have same := (link_of_linkedSchemas first).1.symm.trans (link_of_linkedSchemas final).2
      revert same
      decide
    obtain ⟨warned, -, succeeds⟩ := assemble_reports (indexOf linkedSchemas .swagger2 true)
      .swagger2 true
    obtain ⟨assembly, he⟩ := succeeds resolves acyclic
    have some_warning : (assemble (indexOf linkedSchemas .swagger2 true) .swagger2 true).toOption.all
        (fun assembly => !assembly.warnings.isEmpty) = true := by
      decide +kernel
    rw [he] at some_warning
    change (!assembly.warnings.isEmpty) = true at some_warning
    exact ⟨assembly, he, by simpa using some_warning, warned assembly he⟩
  · have fails : (assemble (indexOf lostSchema .swagger2 true) .swagger2 true).isOk = false := by
      decide +kernel
    cases he : assemble (indexOf lostSchema .swagger2 true) .swagger2 true with
    | ok assembly =>
      rw [he] at fails
      cases fails
    | error error =>
      obtain ⟨-, reported, -⟩ := assemble_reports (indexOf lostSchema .swagger2 true) .swagger2 true
      obtain ⟨reference, place, same, stands, -⟩ := reported error he
      exact ⟨error, rfl, reference, place, same, stands⟩

end ApiTypes.Api
