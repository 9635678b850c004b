import ApiTypes.Proofs.Api.Lifted
import ApiTypes.Proofs.Api.Merged

/-!
# Warnings about locations

A parameter in a location without a group is left out of the type of its operation with a warning.
No other step of assembly warns in these words, so the warnings about locations are those about the
parameters left out:

* `Reports`: which warnings about locations an action raises;
* `silent_carries`, `typeOfRoot_silent`: typing a schema raises none;
* `typedDeclarations_reports`: making all declarations raises those of the operations, in their order;
* `assemble_locationWarnings`: they are told from what is listed in the document.
-/

namespace ApiTypes

/-- The warning says that a parameter is in a location without a group. -/
def Warning.isLocation (warning : Warning) : Bool :=
  warning.kind == .unsupportedShape &&
    "unknown parameter location `".toList.isPrefixOf warning.message.toList

/-- The warnings about locations raised so far. -/
def Typing.State.locationWarnings (state : State) : List Warning :=
  state.warnings.filter Warning.isLocation

namespace Api

open Typing

/-! ## What is reported -/

section
variable {α β : Type}

/-- When the action has a result, it has raised these warnings about locations and no other. -/
def Reports (action : TypingM α) (reported : List Warning) : Prop :=
  ∀ state a after, action.run.run state = (.ok a, after) →
    after.locationWarnings = state.locationWarnings ++ reported

theorem Reports.pure (a : α) : Reports (Pure.pure a) [] := by
  rintro state _ _ ⟨⟩
  exact (List.append_nil _).symm

theorem Reports.bind {action : TypingM α} {next : α → TypingM β} {first later : List Warning}
    (h : Reports action first) (rest : ∀ a, Reports (next a) later) :
    Reports (action >>= next) (first ++ later) := by
  intro state b after he
  rcases hr : action.run.run state with ⟨error | a, mid⟩
  · rw [run_bind_of_error hr] at he
    cases he
  · rw [run_bind_of_ok hr] at he
    rw [rest a mid b after he, h state a mid hr, List.append_assoc]

/-- An action that raises none before one that raises some. -/
theorem Reports.after {action : TypingM α} {next : α → TypingM β} {later : List Warning}
    (h : Reports action []) (rest : ∀ a, Reports (next a) later) : Reports (action >>= next) later :=
  h.bind rest

/-- An action that raises some before one that raises none. -/
theorem Reports.before {action : TypingM α} {next : α → TypingM β} {first : List Warning}
    (h : Reports action first) (rest : ∀ a, Reports (next a) []) :
    Reports (action >>= next) first := by
  have both := h.bind rest
  rwa [List.append_nil] at both

theorem Reports.of_quiet {action : TypingM α} (h : Quiet (fun w => w.isLocation = false) action) :
    Reports action [] := by
  intro state a after he
  obtain ⟨more, others, changed⟩ := h state
  rw [he] at changed
  have none : more.filter Warning.isLocation = [] :=
    List.filter_eq_nil_iff.2 fun warning hm => by simp [others warning hm]
  rw [show after = _ from changed, State.locationWarnings, List.filter_append, none]
  rfl

end

/-! ## Typing a schema -/

section
variable {node : Json} {reason : String}

/-- The ways in which the reasons why a shape is not supported start. -/
def reasonStarts : List String :=
  ["unsupported keyword(s): ", "unknown type `", "schema must be an object, found `"]

theorem reason_of_object (h : Schema.objectSchemaShape node = .unsupported reason) :
    ∃ start ∈ reasonStarts, ∃ rest, reason = start ++ rest := by
  unfold Schema.objectSchemaShape at h
  split at h
  · split at h <;> cases h
  · split at h
    · cases h
    · split at h
      · cases h
        exact ⟨_, .tail _ (.head _), _, String.append_assoc⟩
      · split at h
        · split at h
          · cases h
          · unfold Schema.bareShape at h
            dsimp only at h
            split at h <;> cases h
            exact ⟨_, .head _, _, rfl⟩
        · cases h

theorem reason_of_unsupported (h : Schema.shape node = .unsupported reason) :
    ∃ start ∈ reasonStarts, ∃ rest, reason = start ++ rest := by
  unfold Schema.shape at h
  split at h
  · cases h
  · cases h
  · split at h
    · cases h
    · exact reason_of_object h
  · cases h
    exact ⟨_, .tail _ (.tail _ (.head _)), _, String.append_assoc⟩

/-- No schema is given up on in the words of a warning about a location. -/
theorem notes_otherwise : NotesRaised fun warning => warning.isLocation = false := by
  intro node kind note place degrades
  unfold Warning.isLocation
  cases degrades with
  | unsupported noType =>
    obtain ⟨start, hs, rest, rfl⟩ := reason_of_unsupported noType
    dsimp only
    rw [String.toList_append]
    simp only [reasonStarts, List.mem_cons, List.not_mem_nil, or_false] at hs
    rcases hs with rfl | rfl | rfl <;> rfl
  | value | excluded =>
    dsimp only
    decide
  | enumeration | null => rfl

end

/-- The actions are the same and raise no warning about a location. -/
def Silent {α : Type} (other action : TypingM α) : Prop :=
  other = action ∧ Reports action []

theorem Silent.self {α : Type} {action : TypingM α} (h : Reports action []) : Silent action action :=
  ⟨rfl, h⟩

theorem silent_carries :
    Typing.Lifted.Carries (fun warning => warning.isLocation = false) (fun {_} action => action)
      Silent where
  notes := notes_otherwise
  pure a := .self (.pure a)
  bind := by
    rintro α β _ action next' next ⟨rfl, first⟩ rest
    obtain rfl : next' = next := funext fun a => (rest a).1
    exact .self (first.bind fun a => (rest a).2)
  quiet h := .self (.of_quiet h)

theorem promote_reports (place : Pointer) : Reports (promote place) [] := by
  rintro state _ _ ⟨⟩
  exact (List.append_nil _).symm

theorem recordExpansion_reports (place : Pointer) (type : TypeExpr) :
    Reports (recordExpansion place type) [] := by
  rintro state _ _ ⟨⟩
  exact (List.append_nil _).symm

theorem typeOfReference_reports (index : Index) (path : List Pointer) (reference : String)
    (place : Pointer) : Reports (typeOfReference index path reference place) [] := by
  have named (place : Pointer) : Reports (do return TypeExpr.ref (← promote place)) [] :=
    (promote_reports place).after fun name => .pure _
  rw [typeOfReference]
  cases index.resolve reference place with
  | error error => exact .of_quiet (.throw error)
  | ok target =>
    apply Reports.after (.of_quiet .get)
    intro state
    cases state.names.get? target.pointer with
    | some name => exact .pure _
    | none =>
      dsimp only
      split
      · exact named target.pointer
      · rename_i outside
        have outside : target.pointer ∉ path := by simpa [Index.Target.isCycle] using outside
        cases state.expanded.lookup target.pointer with
        | some type =>
          dsimp only
          split
          · exact .pure type
          · exact named target.pointer
        | none =>
          have smaller := Index.unvisited_lt target.found outside
          apply Reports.after
          · have inner (reference : String) (place : Pointer) :=
              Silent.self (typeOfReference_reports index (path ++ [target.pointer]) reference place)
            exact (silent_carries.typeOfNode inner target.node target.pointer).2
          · intro type
            exact (recordExpansion_reports _ _).after fun _ => .pure _
termination_by index.unvisited path

theorem typeOfRoot_silent (index : Index) (node : Json) (place : Pointer) :
    Silent (typeOfRoot index node place) (typeOfRoot index node place) := by
  have inner (reference : String) (at_place : Pointer) :=
    Silent.self (typeOfReference_reports index [place] reference at_place)
  exact .self (silent_carries.typeOfNode inner node place).2

/-! ## Making declarations -/

/-- The warning about a parameter whose location has no group. -/
def Parameter.locationWarning (parameter : Parameter) : Warning :=
  ⟨.unsupportedShape, some parameter.written.place,
    "unknown parameter location `" ++ parameter.location ++ "`"⟩

/-- The warnings about the parameters that have no group. -/
def leftOut (parameters : List Parameter) : List Warning :=
  (parameters.filter (!·.isKnown)).map Parameter.locationWarning

/-- The warnings about the parameters of an operation, if they are declared. -/
def Operation.reported (operation : Operation) : List Warning :=
  match operation.parametersNamed with
  | none => []
  | some _ => leftOut operation.parameters

theorem isLocation_locationWarning (parameter : Parameter) :
    parameter.locationWarning.isLocation = true := by
  unfold Parameter.locationWarning Warning.isLocation
  dsimp only
  rw [String.toList_append, String.toList_append]
  rfl

section
variable (index : Index) (dialect : Dialect)

theorem partType_reports (part : Part) (written : Located) :
    Reports (partType index dialect part written) [] :=
  (partType_carries silent_carries (typeOfRoot_silent index) dialect part written).2

theorem warn_reports (parameter : Parameter) :
    Reports (warn .unsupportedShape parameter.written.place
      ("unknown parameter location `" ++ parameter.location ++ "`"))
      [parameter.locationWarning] := by
  rintro state _ _ ⟨⟩
  have reported : [parameter.locationWarning].filter Warning.isLocation =
      [parameter.locationWarning] := by
    rw [List.filter_cons_of_pos (isLocation_locationWarning parameter), List.filter_nil]
  exact (List.filter_append _ _).trans (congrArg _ reported)

theorem typedParameters_reports (parameters : List Parameter) :
    Reports (typedParameters index dialect parameters) (leftOut parameters) := by
  induction parameters with
  | nil => exact .pure _
  | cons parameter rest ih =>
    unfold typedParameters leftOut
    split
    · rename_i known
      have known : ¬(!parameter.isKnown) = true := by simpa [Parameter.isKnown] using known
      rw [List.filter_cons_of_neg (p := fun p : Parameter => !p.isKnown) known]
      refine (partType_reports index dialect .parameter parameter.written).after fun type => ?_
      exact ih.before fun later => .pure _
    · rename_i unknown
      have unknown : (!parameter.isKnown) = true := by simpa [Parameter.isKnown] using unknown
      rw [List.filter_cons_of_pos (p := fun p : Parameter => !p.isKnown) unknown]
      exact (warn_reports parameter).bind fun _ => ih

theorem parametersDeclaration_reports (operation : Operation) :
    Reports (parametersDeclaration index dialect operation) operation.reported := by
  unfold parametersDeclaration Operation.reported
  cases operation.parametersNamed with
  | none => exact .pure _
  | some named =>
    have typed := (typedParameters_reports index dialect operation.parameters).before fun typed =>
      .pure (TypeExpr.object (parameterLocations.filterMap (parameterGroup? typed)))
    exact typed.before fun type => .pure _

theorem operationDeclarations_reports (operation : Operation) :
    Reports (operationDeclarations index dialect operation) operation.reported := by
  have rooted := typeOfRoot_silent index
  refine (parametersDeclaration_reports index dialect operation).before fun parameters => ?_
  refine (bodyDeclaration_carries silent_carries rooted dialect operation).2.after fun body => ?_
  refine (responseDeclarations_carries silent_carries rooted dialect
    operation.responses).2.after fun responses => ?_
  exact .pure _

theorem allDeclarations_reports (candidates : List Candidate) :
    Reports (allDeclarations index dialect candidates)
      ((operationsOf candidates).flatMap Operation.reported) := by
  induction candidates with
  | nil => exact .pure _
  | cons candidate rest ih =>
    have later (first : List Declaration) := ih.before fun later => .pure (first ++ later)
    cases candidate with
    | component here kind name =>
      have typed := (componentType_carries silent_carries (typeOfRoot_silent index) dialect kind
        here).2
      have first := typed.before fun type =>
        .pure [(⟨name, here.place, kind, type, Schema.doc? here.node⟩ : Declaration)]
      exact first.after later
    | operation operation =>
      exact (operationDeclarations_reports index dialect operation).bind later

theorem typedDeclarations_reports (candidates : List Candidate) :
    Reports (typedDeclarations index dialect candidates)
      ((operationsOf candidates).flatMap Operation.reported) := by
  refine (allDeclarations_reports index dialect candidates).before fun declared => ?_
  have promoted := (promotedDeclarations_carries silent_carries (typeOfRoot_silent index) []).2
  exact promoted.before fun promoted => .pure _

end

/-! ## Warnings of an assembly -/

namespace Operation

/-- The warnings about the parameters of an operation that count and whose location has no group. -/
def locationWarnings (index : Index) (place : Pointer) : List Warning :=
  ((lastParameters index place).filter (!·.isGrouped)).map fun entry =>
    ⟨.unsupportedShape, some entry.written.place,
      "unknown parameter location `" ++ entry.location ++ "`"⟩

theorem PlannedAt.reported_eq {index : Index} {dialect : Dialect} {here : Located}
    {operation : Operation} (h : operation.PlannedAt index dialect here) :
    operation.reported = locationWarnings index here.place := by
  obtain ⟨-, _, _, planned⟩ := h
  have outlined := plan_outlined planned
  have collected := plan_collected planned
  have all : leftOut operation.parameters = locationWarnings index here.place := by
    rw [collected.parameters, leftOut, List.filter_map, List.map_map]
    rfl
  unfold reported
  cases hn : operation.parametersNamed with
  | some named => exact all
  | none =>
    -- nothing is named when nothing is listed
    have placed := outlined.parameters
    rw [hn] at placed
    have empty : listedParameters index here.place = [] := by
      by_contra some
      rw [if_pos (hasParameters_iff.2 some)] at placed
      cases placed
    rw [locationWarnings, lastParameters, empty]
    rfl

end Operation

/-- The warnings about locations are those about the parameters listed for the operations of the
document, operation by operation. -/
theorem assemble_locationWarnings {index : Index} {dialect : Dialect} {rawSchema : Bool}
    {assembly : Assembly} (h : assemble index dialect rawSchema = .ok assembly) :
    assembly.warnings.filter Warning.isLocation =
      (operationsAt index rawSchema).flatMap fun here =>
        Operation.locationWarnings index here.place := by
  obtain ⟨found, names, declared, promoted, collected, typed, -, rfl⟩ := assemble_finishes h
  have reported := typedDeclarations_reports index dialect found _ _ _ typed
  have same : (operationsOf found).map Operation.reported =
      (operationsAt index rawSchema).map fun here => Operation.locationWarnings index here.place :=
    map_eq_of_forall₂ (operations_planned collected) fun _ _ planned => planned.reported_eq
  refine reported.trans ?_
  rw [List.flatMap_def, List.flatMap_def, same]
  rfl

end Api

end ApiTypes
