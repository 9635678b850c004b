import ApiTypes.Compile
import ApiTypes.Proofs.Api.Lifted
import ApiTypes.Proofs.Typing.Expansions

/-!
# Targets are expanded once

Assembly with the log of `Typing.Watched` kept, and what the log says (`expansions_orderly`): of any
document, also one that does not assemble, and of calls of typing one after another, as long as they
succeed. After a failed call a target may be expanded again, as its expansion never returned.
-/

namespace ApiTypes.Api

open Typing

/-- All declarations of a document, with the log kept. -/
def assembleWatched (index : Index) (dialect : Dialect) (rawSchema : Bool) :
    Except CompileError Assembly × Watched :=
  match (candidates index dialect rawSchema index.locations).run {} with
  | .error error => (.error error, ⟨{ names := {} }, []⟩)
  | .ok (candidates, names) =>
    let (result, watched) :=
      (Lifted.typedDeclarations Watched.ofTyping
        (fun node place => Watched.typeAt index [place] node place)
        index dialect candidates).run.run ⟨{ names }, []⟩
    let assembly := do
      let typed ← result
      let declarations :=
        if rawSchema then typed else typed ++ [wrapper (operationsOf candidates)]
      Declaration.verifyClosure declarations
      return ⟨declarations, watched.state.warnings⟩
    (assembly, watched)

theorem typedDeclarations_watches (index : Index) (names : NameTable) (dialect : Dialect)
    (candidates : List Candidate) :
    Watches names []
      (Lifted.typedDeclarations Watched.ofTyping
        (fun node place => Watched.typeAt index [place] node place) index dialect candidates)
      (typedDeclarations index dialect candidates) := by
  refine typedDeclarations_carries (watches_carries names []) ?_ dialect (fun _ _ => trivial) candidates
  intro node place
  exact (typeAt_watches index names [place] node place).narrow

theorem calls_watches (index : Index) (names : NameTable) (calls : List Call) :
    Watches names [] (calls.mapM (Call.watched index)) (calls.mapM (Call.action index)) := by
  induction calls with
  | nil => exact .pure []
  | cons call rest ih =>
    rw [List.mapM_cons, List.mapM_cons]
    apply (call_watches index names call).bind
    intro type
    apply ih.bind
    intro types
    exact .pure (type :: types)

/-- Keeping the log changes nothing, and what it tells is orderly: of assembly, and of calls of
typing from any names until one fails. -/
theorem expansions_orderly (index : Index) :
    (∀ dialect rawSchema,
      let (result, watched) := assembleWatched index dialect rawSchema
      result = assemble index dialect rawSchema ∧ watched.Orderly) ∧
    ∀ (names : NameTable) (calls : List Call),
      let (result, watched) := (calls.mapM (Call.watched index)).run.run ⟨{ names }, []⟩
      (calls.mapM (Call.action index)).run.run { names } = (result, watched.state) ∧
        watched.Orderly := by
  constructor
  · intro dialect rawSchema
    rw [assembleWatched, assemble]
    cases (candidates index dialect rawSchema index.locations).run {} with
    | error error => exact ⟨rfl, (told_start {}).orderly rfl⟩
    | ok planned =>
      obtain ⟨candidates, names⟩ := planned
      obtain ⟨result, watched, logged, plain, orderly⟩ :=
        (typedDeclarations_watches index names dialect candidates).orderly
      simp only [logged]
      refine ⟨?_, orderly⟩
      simp only [bind, Except.bind, plain]
  · intro names calls
    obtain ⟨result, watched, logged, plain, orderly⟩ := (calls_watches index names calls).orderly
    rw [logged]
    exact ⟨plain, orderly⟩

/-- A shape that two properties of a definition refer to. It is no definition itself. -/
def sharedShape : Document :=
  .ofJson (.object [
    ("swagger", .string "2.0"),
    ("paths", .object []),
    ("definitions", .object [
      ("Line", .object [("properties", .object [
        ("from", .object [("$ref", .string "#/x-shapes/Point")]),
        ("to", .object [("$ref", .string "#/x-shapes/Point")])])])]),
    ("x-shapes", .object [
      ("Point", .object [("properties", .object [("x", .object [("type", .string "number")])])])])])

-- Its expansion starts and returns for `from`, and `to` is answered with its new name.
example :
    let watched := (assembleWatched (indexOf sharedShape .swagger2 false) .swagger2 false).2
    watched.log.length = 3 ∧ openings watched.log = [⟨["x-shapes", "Point"]⟩] ∧
      watched.state.promoted = [(⟨["x-shapes", "Point"]⟩, "Point")] := by
  decide +kernel

end ApiTypes.Api
