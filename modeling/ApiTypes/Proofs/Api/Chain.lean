import ApiTypes.Api.Chain
import ApiTypes.Proofs.Place

/-!
# Chains of references

`followChain` goes from place to place along references. It ends where it is stopped or at a part
that is no reference, and both are reached from the start (`followChain_ends`); it fails only on a
reference that leads nowhere or back to a place it has passed.
-/

namespace ApiTypes.Api

open Relation

/-- The node is the one at its place. -/
def Located.Stands (index : Index) (here : Located) : Prop :=
  index.get? here.place = some here.node

/-- Where a chain of references may end that starts at a place. -/
def EndOfChain {α : Type} (index : Index) (stop? : Pointer → Option α) (start : Pointer) :
    α ⊕ Located → Prop
  | .inl answer => ∃ target, TransGen index.Link start target ∧ stop? target = some answer
  | .inr found => ReflTransGen index.Link start found.place ∧ found.Stands index ∧
      Schema.reference? found.node = none

section
variable {index : Index}

theorem link_of_resolve {here : Located} (stands : here.Stands index) {reference : String}
    (hr : Schema.reference? here.node = some reference) {target : index.Target}
    (h : index.resolve reference here.place = .ok target) :
    index.Link here.place target.pointer :=
  ⟨here.node, reference, target, stands, hr, Index.locate?_of_resolve h, rfl⟩

theorem EndOfChain.of_link {α : Type} {stop? : Pointer → Option α} {start next : Pointer}
    (h : index.Link start next) {answer : α ⊕ Located}
    (ends : EndOfChain index stop? next answer) : EndOfChain index stop? start answer := by
  cases answer with
  | inl answer =>
    obtain ⟨target, chain, ht⟩ := ends
    exact ⟨target, .head h chain, ht⟩
  | inr found =>
    obtain ⟨chain, rest⟩ := ends
    exact ⟨.head h chain, rest⟩

/-- Following a chain. The places passed lead to where the walk has come. -/
theorem followChain_ends {α : Type} (stop? : Pointer → Option α) (seen : List Pointer)
    (here : Located) (stands : here.Stands index)
    (passed : ∀ place ∈ seen, ReflTransGen index.Link place here.place) :
    match followChain index stop? seen here with
    | .ok answer => EndOfChain index stop? here.place answer
    | .error error => index.Broken error := by
  fun_induction followChain index stop? seen here with
  | case1 seen here hr => exact ⟨.refl, stands, hr⟩
  | case2 seen here reference hr error he => exact Index.broken_of_resolve stands hr he
  | case3 seen here reference hr target ht answer hs =>
    exact ⟨target.pointer, .single (link_of_resolve stands hr ht), hs⟩
  | case4 seen here reference hr target ht hs cycle =>
    have link := link_of_resolve stands hr ht
    have back : ReflTransGen index.Link target.pointer here.place := by
      have hm : target.pointer ∈ seen ++ [here.place] := by
        simpa [Index.Target.isCycle] using cycle
      rcases List.mem_append.1 hm with hm | hm
      · exact passed _ hm
      · rw [List.mem_singleton.1 hm]
    exact ⟨reference, here.place, here.node, rfl, stands, hr, .inr (.head' link back)⟩
  | case5 seen here reference hr target ht hs fresh ih =>
    have link := link_of_resolve stands hr ht
    have passed_next : ∀ place ∈ seen ++ [here.place],
        ReflTransGen index.Link place target.pointer := by
      intro place hm
      rcases List.mem_append.1 hm with hm | hm
      · exact (passed place hm).tail link
      · rw [List.mem_singleton.1 hm]
        exact .single link
    have ends := ih target.found passed_next
    split
    · rename_i answer he
      rw [he] at ends
      exact ends.of_link link
    · rename_i error he
      rwa [he] at ends

theorem broken_of_deref {here : Located} (stands : here.Stands index) {error : CompileError}
    (h : deref index here = .error error) : index.Broken error := by
  have ends := followChain_ends (fun _ => (none : Option Empty)) [] here stands (by simp)
  unfold deref at h
  cases hf : followChain index (fun _ => (none : Option Empty)) [] here with
  | error error' =>
    rw [hf] at ends h
    cases h
    exact ends
  | ok answer =>
    rw [hf] at h
    cases h

end

end ApiTypes.Api
