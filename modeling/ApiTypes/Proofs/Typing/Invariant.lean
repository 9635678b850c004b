import ApiTypes.Proofs.Typing.Run

/-!
# The state of typing

`State.Valid` is what holds of the state throughout: no name and no place occurs twice, the names
given are those planned before typing and then those of the promoted places, and every place that
the state mentions is a place of the document. Every step keeps it (`step_valid`), so every run
does (`run_valid`).
-/

namespace ApiTypes.Typing

open Schema

/-- A state in which `planned` was named before typing began. -/
structure State.Valid (index : Index) (planned : List (Pointer × String)) (state : State) : Prop where
  names : state.names.Valid
  entries : state.names.entries = planned ++ state.promoted
  promoted : ∀ entry ∈ state.promoted, (index.get? entry.1).isSome
  warned : ∀ warning ∈ state.warnings, ∃ place, warning.pointer = some place ∧
    (index.get? place).isSome
  expanded : ∀ entry ∈ state.expanded, ∃ node, index.get? entry.1 = some node ∧
    NodeTyped index state node entry.1 entry.2
  once : (state.expanded.map (·.1)).Nodup

section
variable {index : Index} {planned : List (Pointer × String)} {path : List Pointer}

theorem valid_start {names : NameTable} (h : names.Valid) :
    State.Valid index names.entries { names } :=
  ⟨h, by simp, by simp, by simp, by simp, by simp⟩

/-- What was recorded stays rightly typed as the state grows. -/
theorem State.Valid.expanded_later {state later : State} (hv : state.Valid index planned)
    (grows : state.Grows later) : ∀ entry ∈ state.expanded, ∃ node,
      index.get? entry.1 = some node ∧ NodeTyped index later node entry.1 entry.2 := by
  intro entry hm
  obtain ⟨node, hp, ht⟩ := hv.expanded entry hm
  exact ⟨node, hp, NodeTyped.mono grows _ _ _ ht⟩

theorem step_valid {a b : State} (h : Step index path a b) (hv : a.Valid index planned) :
    b.Valid index planned := by
  have later := hv.expanded_later h.grows
  obtain ⟨hn, he, hp, hw, hx, ho⟩ := hv
  cases h with
  | warn kind place message stands =>
    refine ⟨hn, he, hp, ?_, later, ho⟩
    intro warning hm
    rcases List.mem_append.1 hm with hm | hm
    · exact hw warning hm
    · rw [List.mem_singleton.1 hm]
      exact ⟨place, rfl, stands⟩
  | promote target unnamed =>
    refine ⟨hn.extended _ unnamed, ?_, ?_, hw, later, ho⟩
    · simp only [NameTable.extended, State.promotedName, he, List.append_assoc]
    · intro entry hm
      rcases List.mem_append.1 hm with hm | hm
      · exact hp entry hm
      · rw [List.mem_singleton.1 hm]
        simp [target.found]
  | record target type outside new typed =>
    refine ⟨hn, he, hp, hw, ?_, ?_⟩
    · intro entry hm
      rcases List.mem_append.1 hm with hm | hm
      · exact later entry hm
      · rw [List.mem_singleton.1 hm]
        refine ⟨target.node, target.found, ?_⟩
        exact NodeTyped.mono (Step.record target type outside new typed).grows _ _ _ typed
    · rw [List.map_append]
      refine List.nodup_append.2 ⟨ho, by simp, ?_⟩
      intro p hm q hq e
      have hq : q = target.pointer := by simpa using hq
      obtain ⟨entry, he, rfl⟩ := List.mem_map.1 hm
      have := List.lookup_eq_none_iff.1 new entry he
      simp [e, hq] at this

theorem run_valid {a b : State} (h : Run index path a b) (hv : a.Valid index planned) :
    b.Valid index planned := by
  induction h with
  | refl => exact hv
  | tail _ step ih => exact step_valid step ih

theorem State.Valid.promoted_nodup {state : State} (hv : state.Valid index planned) :
    (state.promoted.map (·.1)).Nodup := by
  have := hv.names.places
  rw [hv.entries, List.map_append] at this
  exact (List.nodup_append.1 this).2.1

end

end ApiTypes.Typing
