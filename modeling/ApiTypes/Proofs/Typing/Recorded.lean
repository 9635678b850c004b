import ApiTypes.Proofs.Typing.Run
import Mathlib.Data.List.Infix

/-!
# The order of recorded types

The type of an expanded target is recorded once it is made, so it was made with what had been
recorded before. `State.Ordered` says so of every recorded type, judged by the state as it is with
only the earlier ones (`State.upTo`). Every step keeps it, so every run does (`run_ordered`). An
induction on how many types are recorded can thus go from a target into what its type repeats.
-/

namespace ApiTypes.Typing

/-- The state with only the first types recorded. -/
def State.upTo (state : State) (count : Nat) : State :=
  { state with expanded := state.expanded.take count }

@[simp]
theorem State.upTo_length (state : State) : state.upTo state.expanded.length = state := by
  rw [State.upTo, List.take_length]

theorem State.Grows.upTo {state later : State} (grows : state.Grows later) (count : Nat) :
    (state.upTo count).Grows (later.upTo count) :=
  { names := grows.names
    promoted := grows.promoted
    warnings := grows.warnings
    expanded := grows.expanded.take count }

/-- Every recorded type is what typing makes of its place with the types recorded before. -/
def State.Ordered (index : Index) (state : State) : Prop :=
  ∀ count target type, state.expanded[count]? = some (target, type) →
    ∃ node, index.get? target = some node ∧ NodeTyped index (state.upTo count) node target type

theorem ordered_start (index : Index) (names : NameTable) : State.Ordered index { names } := by
  intro count target type found
  simp at found

section
variable {index : Index} {path : List Pointer}

theorem State.Ordered.later {state later : State} (ho : state.Ordered index)
    (grows : state.Grows later) {count : Nat} {target : Pointer} {type : TypeExpr}
    (found : state.expanded[count]? = some (target, type)) :
    ∃ node, index.get? target = some node ∧
      NodeTyped index (later.upTo count) node target type := by
  obtain ⟨node, stands, typed⟩ := ho count target type found
  exact ⟨node, stands, NodeTyped.mono (grows.upTo count) _ _ _ typed⟩

theorem step_ordered {a b : State} (h : Step index path a b) (ho : a.Ordered index) :
    b.Ordered index := by
  have grows := h.grows
  intro count target type found
  cases h with
  | warn | promote => exact ho.later grows found
  | record new made outside unrecorded typed =>
    by_cases earlier : count < a.expanded.length
    · rw [List.getElem?_append_left earlier] at found
      exact ho.later grows found
    · have last : count = a.expanded.length := by
        have bound := (List.getElem?_eq_some_iff.1 found).1
        simp only [List.length_append, List.length_singleton] at bound
        omega
      subst last
      simp only [List.getElem?_append_right, Nat.le_refl, Nat.sub_self, List.getElem?_cons_zero,
        Option.some.injEq, Prod.mk.injEq] at found
      obtain ⟨rfl, rfl⟩ := found
      have upTo := grows.upTo a.expanded.length
      rw [State.upTo_length] at upTo
      exact ⟨new.node, new.found, NodeTyped.mono upTo _ _ _ typed⟩

theorem run_ordered {a b : State} (h : Run index path a b) (ho : a.Ordered index) :
    b.Ordered index := by
  induction h with
  | refl => exact ho
  | tail _ step ih => exact step_ordered step ih

/-- A type recorded among the first was recorded after fewer. -/
theorem State.Ordered.of_mem {state : State} (ho : state.Ordered index) {count : Nat}
    {target : Pointer} {type : TypeExpr} (hm : (target, type) ∈ (state.upTo count).expanded) :
    ∃ fewer < count, ∃ node, index.get? target = some node ∧
      NodeTyped index (state.upTo fewer) node target type := by
  obtain ⟨fewer, hf, found⟩ := List.mem_take_iff_getElem.1 hm
  refine ⟨fewer, by omega, ho fewer target type ?_⟩
  rw [← found]
  exact List.getElem?_eq_getElem _

end

end ApiTypes.Typing
