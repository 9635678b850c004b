import ApiTypes.Proofs.Traversal
import ApiTypes.Typing.Reference
import Mathlib.Data.List.Perm.Subperm

/-!
# Typing within a bound

`typeWithin` types schemas as `typeAt` does, but goes at most so many calls deep, and it looks at
the path of places under expansion before each: should the calls ever be too deep, or the path be
none that references of the document can make (`Index.IsPath`), it fails with an alarm.

* `Index.IsPath.extend`: a path stays one when a place is added that is not on it;
* `Index.IsPath.length_le`: so references are never nested deeper than there are places, and one;
* `typeWithin_eq`: with the bound `typingBound` no alarm is ever raised, whatever it is, and typing
  within it is typing.
-/

namespace ApiTypes

/-! ## Sizes -/

theorem Json.sizeOf_step {node child : Json} {segment : String}
    (h : node.step? segment = some child) : sizeOf child < sizeOf node :=
  sizeOf_of_mem_children (mem_children_of_step? h)

theorem Json.sizeOf_walk {path : List String} {node target : Json}
    (h : node.walk? path = some target) : sizeOf target ≤ sizeOf node := by
  refine walk_keeps (P := fun within => sizeOf within ≤ sizeOf node) ?_ (Nat.le_refl _) h
  intro inner child segment le step
  exact Nat.le_trans (Nat.le_of_lt (Json.sizeOf_step step)) le

/-- No node of a document is larger than its root. -/
theorem Index.Target.sizeOf_le {index : Index} (target : index.Target) :
    sizeOf target.node ≤ sizeOf index.document.root :=
  Json.sizeOf_walk target.found

/-! ## Paths -/

namespace Index

/-- A path of places under expansion: `start`, and behind it places of the document, all of them
different. It holds at most one place more than the document. -/
def IsPath (index : Index) (start : Pointer) (path : List Pointer) : Prop :=
  path.head? = some start ∧ path.Nodup ∧ (∀ place ∈ path.tail, (index.get? place).isSome) ∧
    path.length ≤ index.size + 1

instance (index : Index) (start : Pointer) (path : List Pointer) :
    Decidable (index.IsPath start path) :=
  inferInstanceAs (Decidable (_ ∧ _))

variable {index : Index} {start : Pointer} {path : List Pointer}

/-- Places of the document that are all different are no more than there are. -/
theorem length_le_size {places : List Pointer} (distinct : places.Nodup)
    (indexed : ∀ place ∈ places, (index.get? place).isSome) : places.length ≤ index.size := by
  have among : places ⊆ index.locations.map (·.1) := by
    intro place hm
    obtain ⟨node, hn⟩ := Option.isSome_iff_exists.1 (indexed place hm)
    exact List.mem_map_of_mem (f := (·.1)) (mem_locations hn)
  have := (List.subperm_of_subset distinct among).length_le
  rwa [List.length_map] at this

theorem isPath_iff : index.IsPath start path ↔
    path.head? = some start ∧ path.Nodup ∧ ∀ place ∈ path.tail, (index.get? place).isSome := by
  constructor
  · rintro ⟨first, distinct, indexed, -⟩
    exact ⟨first, distinct, indexed⟩
  · rintro ⟨first, distinct, indexed⟩
    refine ⟨first, distinct, indexed, ?_⟩
    have behind := length_le_size distinct.tail indexed
    rw [List.length_tail] at behind
    omega

theorem isPath_start (index : Index) (start : Pointer) : index.IsPath start [start] := by
  rw [isPath_iff]
  simp

theorem IsPath.length_le (h : index.IsPath start path) : path.length ≤ index.size + 1 :=
  h.2.2.2

theorem IsPath.extend (h : index.IsPath start path) (target : index.Target)
    (outside : target.pointer ∉ path) : index.IsPath start (path ++ [target.pointer]) := by
  obtain ⟨first, distinct, indexed⟩ := isPath_iff.1 h
  cases path with
  | nil => cases first
  | cons place rest =>
    rw [isPath_iff]
    refine ⟨first, ?_, ?_⟩
    · rw [List.nodup_append]
      refine ⟨distinct, List.pairwise_singleton _ _, ?_⟩
      intro a ha b hb same
      exact outside (List.mem_singleton.1 hb ▸ same ▸ ha)
    · intro later hm
      rcases List.mem_append.1 hm with hm | hm
      · exact indexed later hm
      · rw [List.mem_singleton.1 hm]
        simp [target.found]

end Index

namespace Typing

/-! ## Bounded typing -/

section
variable (index : Index)

/-- The type for a reference, when `expand` gives the type of a target on a longer path. -/
def referenceThrough (expand : List Pointer → Json → Pointer → TypingM TypeExpr)
    (path : List Pointer) (reference : String) (place : Pointer) : TypingM TypeExpr := do
  match index.resolve reference place with
  | .error error => throw error
  | .ok target =>
    let state ← get
    match state.names.get? target.pointer with
    | some name => return .ref name
    | none =>
      if target.isCycle path then return .ref (← promote target.pointer)
      else
        match state.expanded.lookup target.pointer with
        | some type =>
          if type.isSimple then return type else return .ref (← promote target.pointer)
        | none =>
          let type ← expand (path ++ [target.pointer]) target.node target.pointer
          recordExpansion target.pointer type
          return type

/-- The type of the schema at a place, by no more than `bound` calls inside one another. -/
def typeWithin (start : Pointer) (alarm : CompileError) :
    (bound : Nat) → List Pointer → Json → Pointer → TypingM TypeExpr
  | 0, _, _, _ => throw alarm
  | bound + 1, path, node, place =>
    if index.IsPath start path then do
      let (type, choiceHasNull) ←
        shapeType (fun inner => typeWithin start alarm bound path inner.node)
          (referenceThrough index (typeWithin start alarm bound) path) place (Schema.shape node)
      withNull node place type choiceHasNull
    else throw alarm

/-- How deep the calls may be that type a schema: down into it, and into one further target for
every place. -/
noncomputable def typingBound (node : Json) : Nat :=
  sizeOf node + index.size * (sizeOf index.document.root + 1) + 1

end

section
variable {index : Index} {start : Pointer} {path : List Pointer} {alarm : CompileError}

/-- Following a reference needs only the types of targets that are not on the path yet. -/
theorem referenceThrough_eq {expand : List Pointer → Json → Pointer → TypingM TypeExpr}
    (h : ∀ target : index.Target, target.pointer ∉ path →
      expand (path ++ [target.pointer]) target.node target.pointer =
        typeAt index (path ++ [target.pointer]) target.node target.pointer) :
    referenceThrough index expand path = typeOfReference index path := by
  funext reference place
  rw [referenceThrough, typeOfReference]
  cases index.resolve reference place with
  | error error => rfl
  | ok target =>
    dsimp only
    congr 1
    funext state
    cases state.names.get? target.pointer with
    | some name => rfl
    | none =>
      dsimp only
      by_cases cycle : target.isCycle path = true
      · rw [if_pos cycle, dif_pos cycle]
      · rw [if_neg cycle, dif_neg cycle]
        have outside : target.pointer ∉ path := by simpa [Index.Target.isCycle] using cycle
        rw [h target outside]
        rfl

/-- Every call lowers what is left to go through: inside a schema the size of the schema, and along
a reference the number of places that are not on the path. -/
theorem typeWithin_eq_typeAt (bound : Nat) (node : Json) (place : Pointer)
    (h : index.IsPath start path)
    (enough : sizeOf node + (index.size + 1 - path.length) * (sizeOf index.document.root + 1) <
      bound) :
    typeWithin index start alarm bound path node place = typeAt index path node place := by
  induction bound generalizing path node place with
  | zero => omega
  | succ bound ih =>
    have inside : (fun inner : Inner node => typeWithin index start alarm bound path inner.node) =
        fun inner => typeOfNode (typeOfReference index path) inner.node := by
      funext inner place
      apply ih inner.node place h
      have := inner.smaller
      omega
    have along : referenceThrough index (typeWithin index start alarm bound) path =
        typeOfReference index path := by
      apply referenceThrough_eq
      intro target outside
      have longer := h.extend target outside
      apply ih target.node target.pointer longer
      have size := target.sizeOf_le
      have length := longer.length_le
      rw [List.length_append, List.length_singleton] at length ⊢
      obtain ⟨left, hl⟩ := Nat.exists_eq_add_of_le length
      have before : index.size + 1 - path.length = left + 1 := by omega
      have after : index.size + 1 - (path.length + 1) = left := by omega
      rw [before, Nat.add_mul] at enough
      rw [after]
      omega
    rw [typeWithin, if_pos h, inside, along, typeAt, typeOfNode]

theorem typeWithin_eq {bound : Nat} (node : Json) (place : Pointer)
    (enough : typingBound index node ≤ bound) :
    typeWithin index place alarm bound [place] node place = typeOfRoot index node place := by
  apply typeWithin_eq_typeAt _ node place (index.isPath_start place)
  rw [typingBound] at enough
  rw [List.length_singleton, Nat.add_sub_cancel]
  omega

/-- The bound for the whole document is enough for each of its nodes. -/
theorem typingBound_le (target : index.Target) :
    typingBound index target.node ≤ typingBound index index.document.root := by
  have := target.sizeOf_le
  unfold typingBound
  omega

end

end Typing

end ApiTypes
