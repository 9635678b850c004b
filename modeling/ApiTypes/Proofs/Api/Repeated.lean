import ApiTypes.Proofs.Api.Size
import ApiTypes.Proofs.Index
import ApiTypes.Proofs.Typing.Layers

/-!
# Kinds that are listed twice

A schema in layers (`Layers`) has no index signature, but with each of its layers it is larger by what
its references repeat, and the layers are expanded in one another. So the declared types grow with the
fourth power of the places (`assemble_repeats`), and a bound by the cube of the places needs a factor
for schemas in one another that list a kind twice (`assemble_exceeds_cube_repeating`).
-/

namespace ApiTypes

namespace Typing.Layers

open Schema TypeExpr Api

/-! ## The declarations -/

section
variable (layers : Layers)

theorem open_start : layers.Open [⟨["A"]⟩] 0 { names := entryNames } := by
  have other (n : Nat) : spot n ≠ ⟨["A"]⟩ := by simp [spot, List.replicate_succ]
  constructor
  · exact ⟨rfl, by simp⟩
  · simp [side]
  · simp
  · simp
  · intro n _ _
    refine ⟨?_, rfl, by simp [other]⟩
    simp [entryNames, NameTable.get?, List.lookup_cons, beq_false_of_ne (other n)]

theorem schema_returns : ∃ type after,
    Returns (typeAt layers.index [⟨["A"]⟩] layers.schema ⟨["A"]⟩) { names := entryNames } type after ∧
    layers.Settled after ∧ type.widening = 0 ∧ layers.weight * layers.depth ^ 2 ≤ 2 * type.size := by
  have start := layers.open_start
  obtain ⟨first, after, made, pass⟩ := within_first start.outside
    (start.innermost layers.depth (Nat.zero_add _).symm) layers.depth (Pointer.child ⟨["A"]⟩ "items")
  obtain ⟨inner, shape, inside⟩ : ∃ inner, shape layers.schema =
      .structural (.one (.array (.single inner))) ∧ inner.node = layers.within layers.depth := by
    obtain ⟨fields, object⟩ := layers.within_object layers.depth
    rw [schema, object]
    exact ⟨_, rfl, rfl⟩
  rw [← inside] at made
  refine ⟨_, after, single_returns rfl shape made, pass.settled, pass.widening_within _, ?_⟩
  have large := pass.large
  have le : first.size ≤ (layersOf first (layers.settledType after) layers.depth).size := by
    rcases pass.later with none | differ
    · rw [none]
      exact Nat.le_refl _
    · have := le_size_layersOf differ layers.depth
      omega
  rw [size]
  omega

end

section
variable {layers : Layers} {state : State}

theorem Met.typeOfRoot (settled : layers.Settled state) {target : layers.index.Target}
    {number : Nat} (small : number < layers.depth) (here : target.pointer = spot number) :
    Returns (typeOfRoot layers.index target.node target.pointer) state
      (arrays (layers.settledType state) (layers.depth - number)) state := by
  have node : target.node = layers.within (layers.depth - number) := by
    have found := target.found
    rw [here, layers.get?_spot (Nat.add_sub_of_le (Nat.le_of_lt small)).symm] at found
    exact (Option.some.inj found).symm
  rw [node, here]
  exact settled.within (by simp [(spot_ne_side number).symm]) _ _

/-- The promoted layers are declared, and nothing is promoted on the way. -/
theorem Met.promotedDeclarations (settled : layers.Settled state) (declared : List Pointer) :
    ∃ declarations, Returns (promotedDeclarations layers.index declared) state declarations state ∧
      ∀ declaration ∈ declarations, declaration.type.widening = 0 := by
  cases next : nextPromoted? layers.index declared state.promoted with
  | none => exact ⟨[], promotedDeclarations_of_none next, by simp⟩
  | some found =>
    obtain ⟨target, name⟩ := found
    have fresh := Index.unvisited_lt target.found (not_mem_of_nextPromoted next)
    obtain ⟨number, small, here⟩ : ∃ number < layers.depth, target.pointer = spot number := by
      simp only [nextPromoted?, Option.bind_eq_some_iff, Option.map_eq_some_iff] at next
      obtain ⟨entry, first, _, leads, pair⟩ := next
      cases pair
      obtain ⟨number, small, same⟩ := settled.promoted entry (List.mem_of_find?_eq_some first)
      exact ⟨number, small, (Index.pointer_of_target? leads).trans same⟩
    obtain ⟨later, rest, narrow⟩ := settled.promotedDeclarations (declared ++ [target.pointer])
    have made : Returns (Api.promotedDeclarations layers.index declared) state
        (⟨name, target.pointer, .promoted,
          arrays (layers.settledType state) (layers.depth - number), doc? target.node⟩ :: later)
        state := by
      unfold Returns
      rw [promotedDeclarations_of_some next]
      exact returns_bind_iff.2
        ⟨_, _, settled.typeOfRoot small here, returns_bind_iff.2 ⟨_, _, rest, rfl⟩⟩
    refine ⟨_, made, ?_⟩
    intro declaration hm
    rcases List.mem_cons.1 hm with rfl | hm
    · exact (widening_arrays _ _).trans settled.widening_eq
    · exact narrow declaration hm
termination_by layers.index.unvisited declared

end

/-! ## The places -/

theorem length_locations_tower (height : Nat) (here : Pointer) :
    ((tower height).locations here).length = height + 1 := by
  induction height generalizing here with
  | zero => rfl
  | succ height ih => simp [tower, Json.locations, Json.fieldLocations, ih]

theorem length_locations_refs (places : List Pointer) (here : Pointer) (number : Nat) :
    (Json.itemLocations here number (places.map refTo)).length = 2 * places.length := by
  induction places generalizing number with
  | nil => rfl
  | cons place rest ih =>
    simp only [List.map_cons, Json.itemLocations, List.length_append, ih, refTo, Json.locations,
      Json.fieldLocations, List.length_cons, List.length_nil]
    omega

theorem repeats_tower (height : Nat) : (tower height).repeats = 0 := by
  induction height with
  | zero => rfl
  | succ height ih =>
    simp [tower, Json.repeats, Json.fieldsRepeats, ih, Json.repeatsKind, Json.listedKinds, Json.get?,
      List.lookup_cons]

theorem repeats_refs (places : List Pointer) : Json.itemsRepeats (places.map refTo) = 0 := by
  induction places with
  | nil => rfl
  | cons place rest ih =>
    rw [List.map_cons, Json.itemsRepeats, ih]
    rfl

section
variable (layers : Layers)

theorem length_locations_within (number : Nat) (here : Pointer) :
    ((layers.within number).locations here).length =
      4 * number + 2 * (layers.more + layers.depth) + 6 := by
  induction number generalizing here with
  | zero =>
    simp only [within, innermost, Json.locations, Json.fieldLocations, List.length_append,
      length_locations_refs, targets, targetsTo, List.length_replicate, List.length_map,
      List.length_range, List.length_cons, List.length_nil]
    omega
  | succ number ih =>
    simp only [within, twice, Json.locations, Json.fieldLocations, Json.itemLocations,
      List.length_append, ih, List.length_cons, List.length_nil]
    omega

theorem size_index :
    layers.index.size = 6 * layers.depth + 2 * layers.more + layers.height + 9 := by
  simp only [Index.size, Index.locations, Layers.index, indexOf, document, schema, Json.locations,
    Json.fieldLocations, List.length_append, length_locations_tower, length_locations_within,
    List.length_cons, List.length_nil]
  omega

theorem repeats_within (number : Nat) : (layers.within number).repeats = number := by
  induction number with
  | zero =>
    rw [within, innermost, Json.repeats, Json.fieldsRepeats, Json.repeats, repeats_refs]
    rfl
  | succ number ih =>
    rw [within, twice, Json.repeats, Json.fieldsRepeats, Json.fieldsRepeats, ih]
    rw [show (Json.array [.string "array", .string "array"]).repeats = 0 from rfl, Json.fieldsRepeats]
    simp [Json.repeatsKind, Json.listedKinds, Json.get?, Json.array?, Json.string?]

theorem repeats_document : layers.index.document.root.repeats = layers.depth := by
  simp [Layers.index, indexOf, document, schema, Json.repeats, Json.fieldsRepeats, repeats_within,
    repeats_tower, Json.repeatsKind, Json.listedKinds, Json.get?, List.lookup_cons]

end

end Typing.Layers

/-! ## Growth -/

namespace Api

open Typing TypeExpr

/-- All that the schema is made of grows alike. -/
def layersOfSize (scale : Nat) : Layers where
  more := 3 * scale
  height := 6 * scale
  depth := 2 * scale

/-- Without any index signature beside properties the declared types grow with the fourth power of the
places, as the layers do that list a kind twice. -/
theorem assemble_repeats (scale : Nat) : ∃ assembly,
    assemble (layersOfSize scale).index .openApi3 true = .ok assembly ∧
    (layersOfSize scale).index.size = 24 * scale + 9 ∧
    (layersOfSize scale).index.document.root.repeats = 2 * scale ∧
    assembly.widening = 0 ∧ 36 * scale ^ 4 ≤ assembly.size := by
  obtain ⟨type, after, typed, settled, narrow, large⟩ := (layersOfSize scale).schema_returns
  obtain ⟨promoted, declared, later⟩ := settled.promotedDeclarations []
  refine ⟨_, assemble_single rfl typed declared, ?_, Layers.repeats_document _, ?_, ?_⟩
  · rw [Layers.size_index]
    simp only [layersOfSize]
    omega
  · apply Nat.le_zero.1 (wideningOfAll_le.2 _)
    intro t hm
    rw [List.map_cons, List.mem_cons] at hm
    rcases hm with rfl | hm
    · exact Nat.le_of_eq narrow
    · obtain ⟨declaration, hd, rfl⟩ := List.mem_map.1 hm
      exact Nat.le_of_eq (later declaration hd)
  · rw [Assembly.size, List.map_cons, sizes]
    simp only [Layers.weight, layersOfSize, entryDeclaration] at large ⊢
    nlinarith

/-- So no multiple of the cube of the places is enough where kinds are listed twice. -/
theorem assemble_exceeds_cube_repeating (factor : Nat) : ∃ scale assembly,
    assemble (layersOfSize scale).index .openApi3 true = .ok assembly ∧ assembly.widening = 0 ∧
      factor * ((layersOfSize scale).index.size + 1) ^ 3 < assembly.size := by
  obtain ⟨scale, enough⟩ : ∃ scale, scale = 1092 * factor + 1 := ⟨_, rfl⟩
  obtain ⟨assembly, he, places, -, narrow, large⟩ := assemble_repeats scale
  refine ⟨scale, assembly, he, narrow, ?_⟩
  have few : (layersOfSize scale).index.size + 1 ≤ 34 * scale := by omega
  calc factor * ((layersOfSize scale).index.size + 1) ^ 3
    _ ≤ factor * (34 * scale) ^ 3 := Nat.mul_le_mul_left _ (Nat.pow_le_pow_left few 3)
    _ = factor * 39304 * scale ^ 3 := by ring
    _ < 36 * scale * scale ^ 3 :=
      Nat.mul_lt_mul_of_pos_right (by omega) (Nat.pow_pos (by omega))
    _ = 36 * scale ^ 4 := by ring
    _ ≤ assembly.size := large

end Api

end ApiTypes
