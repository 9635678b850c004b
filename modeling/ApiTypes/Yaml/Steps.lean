/-!
Work that goes on in steps until there is an answer. Every step must leave less to do, and work
that does not is given up.
-/

namespace ApiTypes.Yaml

/-- What a step comes to: the state to go on from, or the answer. -/
inductive Outcome (σ α : Type)
  | more (state : σ)
  | answer (value : α)

/-- Takes steps from a state until one gives the answer or fails. `left` is how much there is to
do, and has to shrink. -/
def runSteps {σ α : Type} (left : σ → Nat) (step : σ → Option (Outcome σ α)) (state : σ) :
    Option α :=
  match step state with
  | none => none
  | some (.answer value) => some value
  | some (.more next) => if left next < left state then runSteps left step next else none
termination_by left state

end ApiTypes.Yaml
