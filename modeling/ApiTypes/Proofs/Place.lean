import ApiTypes.Schema.Shape
import ApiTypes.Index
import ApiTypes.Proofs.Lists
import Mathlib.Logic.Relation

/-!
# Places of a document

What stands where in a document:

* `get?_child`: the node at a child's place is one step from the node at its parent's;
* `get?_of_mem_locations`, `locations_nodup`: the locations of a document are exactly its places,
  each listed once;
* `get?_innerItems`, `get?_innerFields`: the parts that a schema's keywords hold stand at the
  places that the keywords give them;
* `Link`, `Broken`: what references between places come to, and which errors are about one that
  comes to nothing.
-/

namespace ApiTypes

theorem Text.digitsValue_eq (digits : List Char) :
    Text.digitsValue digits = Nat.ofDigitChars 10 digits 0 := by
  simp only [Text.digitsValue, Text.digitValue, Nat.ofDigitChars_eq_foldl, Nat.mul_comm]
  rfl

theorem Text.digitsValue_toString (n : Nat) : Text.digitsValue (toString n).toList = n := by
  rw [Text.digitsValue_eq, Nat.toString_eq_ofList_toDigits, String.toList_ofList,
    Nat.ofDigitChars_ten_toDigits]

theorem toString_injective {m n : Nat} (h : toString m = toString n) : m = n := by
  have hm := Text.digitsValue_toString m
  rw [h, Text.digitsValue_toString] at hm
  exact hm.symm

theorem Pointer.child_inj {place : Pointer} {a b : String} (h : place.child a = place.child b) :
    a = b := by
  simpa [Pointer.child] using h

namespace Json

theorem elementNumber?_toString (n : Nat) : elementNumber? (toString n) = some n := by
  simp only [elementNumber?, Text.digitsValue_toString, ↓reduceIte]

theorem step?_element {items : List Json} {n : Nat} {item : Json} (h : items[n]? = some item) :
    (array items).step? (toString n) = some item := by
  simp only [step?, elementNumber?_toString, Option.bind_some, h]

theorem step?_key {node value : Json} {key : String} (h : node.get? key = some value) :
    node.step? key = some value := by
  cases node with
  | object fields => exact h
  | _ => simp [get?] at h

theorem walk?_append (node : Json) (path rest : List String) :
    node.walk? (path ++ rest) = (node.walk? path).bind (·.walk? rest) := by
  induction path generalizing node with
  | nil => rfl
  | cons segment path ih =>
    simp only [List.cons_append, walk?]
    cases node.step? segment with
    | none => rfl
    | some child => exact ih child

/-! ## Parts of a node -/

section
variable {node : Json} {key : String}

theorem get?_of_inner {inner : Inner node} (h : node.inner? key = some inner) :
    node.get? key = some inner.node := by
  simp only [inner?] at h
  split at h
  · rename_i value hv
    cases h
    exact hv
  · cases h

theorem get?_of_innerItems {inners : List (Inner node)} (h : node.innerItems? key = some inners) :
    node.get? key = some (.array (inners.map (·.node))) := by
  simp only [Json.innerItems?] at h
  split at h
  · rename_i items hi
    cases h
    rw [List.map_map]
    change node.get? key = some (.array (items.attach.map Subtype.val))
    rwa [List.attach_map_subtype_val]
  · cases h

theorem get?_of_innerFields {inners : List (String × Inner node)}
    (h : node.innerFields? key = some inners) :
    node.get? key = some (.object (inners.map fun field => (field.1, field.2.node))) := by
  simp only [Json.innerFields?] at h
  split at h
  · rename_i fields hf
    cases h
    rw [List.map_map]
    change node.get? key = some (.object (fields.attach.map Subtype.val))
    rwa [List.attach_map_subtype_val]
  · cases h

theorem flag_iff : node.flag key = true ↔ node.get? key = some (.bool true) := by
  rw [Json.flag, beq_iff_eq, Option.bind_eq_some_iff]
  constructor
  · rintro ⟨value, found, set⟩
    cases value <;> cases set
    exact found
  · intro found
    exact ⟨.bool true, found, rfl⟩

end

/-! ## Paths -/

/-- What goes on from every value to what a step leads to holds wherever a path leads. -/
theorem walk_keeps {P : Json → Prop}
    (kept : ∀ {node child : Json} {segment : String}, P node → node.step? segment = some child →
      P child)
    {node target : Json} {path : List String} (start : P node)
    (h : node.walk? path = some target) : P target := by
  induction path generalizing node with
  | nil =>
    cases h
    exact start
  | cons segment rest ih =>
    simp only [walk?, Option.bind_eq_some_iff] at h
    obtain ⟨child, first, later⟩ := h
    exact ih (kept start first) later

/-! ## Distinct keys -/

theorem DistinctKeys.step {node child : Json} {segment : String} (hd : node.DistinctKeys)
    (h : node.step? segment = some child) : child.DistinctKeys := by
  cases node with
  | object fields => exact distinctFields_iff.1 hd.2 _ (mem_of_lookup h)
  | array items =>
    simp only [step?, Option.bind_eq_some_iff] at h
    obtain ⟨n, _, h⟩ := h
    exact distinctItems_iff.1 hd _ (List.mem_of_getElem? h)
  | _ => simp [step?] at h

theorem DistinctKeys.walk {node target : Json} {path : List String} (hd : node.DistinctKeys)
    (h : node.walk? path = some target) : target.DistinctKeys :=
  walk_keeps DistinctKeys.step hd h

/-! ## Locations -/

mutual

/-- Each location is where a path leads. -/
theorem walk_of_mem_locations {p : Pointer} {n : Json} : (here : Pointer) → (node : Json) →
    node.DistinctKeys → (p, n) ∈ node.locations here →
      ∃ path, p.segments = here.segments ++ path ∧ node.walk? path = some n
  | here, .array items, hd, h => by
    simp only [locations] at h
    rcases List.mem_cons.1 h with h | h
    · cases h
      exact ⟨[], by simp, rfl⟩
    · obtain ⟨k, item, path, hk, hp, hw⟩ := walk_of_mem_itemLocations here 0 items hd h
      refine ⟨toString k :: path, by simpa using hp, ?_⟩
      simp only [walk?, step?_element hk, Option.bind_some, hw]
  | here, .object fields, hd, h => by
    simp only [locations] at h
    rcases List.mem_cons.1 h with h | h
    · cases h
      exact ⟨[], by simp, rfl⟩
    · obtain ⟨key, value, path, hk, hp, hw⟩ := walk_of_mem_fieldLocations here fields hd.2 h
      refine ⟨key :: path, by simpa using hp, ?_⟩
      simp [walk?, step?, lookup_of_mem hd.1 hk, hw]
  | here, .null, _, h | here, .bool _, _, h | here, .number _, _, h | here, .string _, _, h => by
    simp only [locations, List.mem_singleton, Prod.mk.injEq] at h
    obtain ⟨rfl, rfl⟩ := h
    exact ⟨[], by simp, rfl⟩

theorem walk_of_mem_itemLocations {p : Pointer} {n : Json} : (here : Pointer) → (start : Nat) →
    (items : List Json) → DistinctItems items → (p, n) ∈ itemLocations here start items →
      ∃ k item path, items[k]? = some item ∧
        p.segments = here.segments ++ toString (start + k) :: path ∧ item.walk? path = some n
  | _, _, [], _, h => by cases h
  | here, start, item :: rest, hd, h => by
    simp only [itemLocations] at h
    rcases List.mem_append.1 h with h | h
    · obtain ⟨path, hp, hw⟩ := walk_of_mem_locations (here.element start) item hd.1 h
      exact ⟨0, item, path, rfl, by simpa [Pointer.element, Pointer.child] using hp, hw⟩
    · obtain ⟨k, found, path, hk, hp, hw⟩ :=
        walk_of_mem_itemLocations here (start + 1) rest hd.2 h
      refine ⟨k + 1, found, path, by simpa using hk, ?_, hw⟩
      rw [hp, show start + 1 + k = start + (k + 1) by omega]

theorem walk_of_mem_fieldLocations {p : Pointer} {n : Json} : (here : Pointer) →
    (fields : List (String × Json)) → DistinctFields fields →
    (p, n) ∈ fieldLocations here fields →
      ∃ key value path, (key, value) ∈ fields ∧
        p.segments = here.segments ++ key :: path ∧ value.walk? path = some n
  | _, [], _, h => by cases h
  | here, (key, value) :: rest, hd, h => by
    simp only [fieldLocations] at h
    rcases List.mem_append.1 h with h | h
    · obtain ⟨path, hp, hw⟩ := walk_of_mem_locations (here.child key) value hd.1 h
      exact ⟨key, value, path, List.mem_cons_self, by simpa [Pointer.child] using hp, hw⟩
    · obtain ⟨k, v, path, hk, hp, hw⟩ := walk_of_mem_fieldLocations here rest hd.2 h
      exact ⟨k, v, path, List.mem_cons_of_mem _ hk, hp, hw⟩

end

theorem segment_ne_of_ne {a b : String} (h : a ≠ b) (here p q : List String) :
    here ++ a :: p ≠ here ++ b :: q := by
  intro e
  exact h (List.cons.inj (List.append_cancel_left e)).1

mutual

theorem locations_nodup : (here : Pointer) → (node : Json) → node.DistinctKeys →
    ((node.locations here).map (·.1)).Nodup
  | here, .array items, hd => by
    simp only [locations, List.map_cons, List.nodup_cons]
    refine ⟨?_, itemLocations_nodup here 0 items hd⟩
    intro h
    obtain ⟨⟨p, n⟩, h, rfl⟩ := List.mem_map.1 h
    obtain ⟨k, item, path, _, hp, _⟩ := walk_of_mem_itemLocations p 0 items hd h
    simp at hp
  | here, .object fields, hd => by
    simp only [locations, List.map_cons, List.nodup_cons]
    refine ⟨?_, fieldLocations_nodup here fields hd.1 hd.2⟩
    intro h
    obtain ⟨⟨p, n⟩, h, rfl⟩ := List.mem_map.1 h
    obtain ⟨key, value, path, _, hp, _⟩ := walk_of_mem_fieldLocations p fields hd.2 h
    simp at hp
  | _, .null, _ | _, .bool _, _ | _, .number _, _ | _, .string _, _ => by simp [locations]

theorem itemLocations_nodup : (here : Pointer) → (start : Nat) → (items : List Json) →
    DistinctItems items → ((itemLocations here start items).map (·.1)).Nodup
  | _, _, [], _ => by simp [itemLocations]
  | here, start, item :: rest, hd => by
    simp only [itemLocations, List.map_append]
    refine List.nodup_append.2 ⟨locations_nodup _ item hd.1,
      itemLocations_nodup here (start + 1) rest hd.2, ?_⟩
    intro p hp q hq e
    obtain ⟨⟨p, n⟩, hpl, rfl⟩ := List.mem_map.1 hp
    obtain ⟨⟨q, m⟩, hql, rfl⟩ := List.mem_map.1 hq
    obtain ⟨path, hpath, _⟩ := walk_of_mem_locations _ item hd.1 hpl
    obtain ⟨k, _, path', _, hpath', _⟩ := walk_of_mem_itemLocations here (start + 1) rest hd.2 hql
    have hne : toString start ≠ toString (start + 1 + k) := by
      intro h
      have := toString_injective h
      omega
    refine segment_ne_of_ne hne here.segments path path' ?_
    rw [← hpath', ← congrArg Pointer.segments e, hpath, Pointer.element, Pointer.child,
      List.append_assoc, List.singleton_append]

theorem fieldLocations_nodup : (here : Pointer) → (fields : List (String × Json)) →
    (fields.map (·.1)).Nodup → DistinctFields fields →
    ((fieldLocations here fields).map (·.1)).Nodup
  | _, [], _, _ => by simp [fieldLocations]
  | here, (key, value) :: rest, hk, hd => by
    simp only [fieldLocations, List.map_append]
    obtain ⟨hkey, hk⟩ := List.nodup_cons.1 hk
    refine List.nodup_append.2 ⟨locations_nodup _ value hd.1,
      fieldLocations_nodup here rest hk hd.2, ?_⟩
    intro p hp q hq e
    obtain ⟨⟨p, n⟩, hpl, rfl⟩ := List.mem_map.1 hp
    obtain ⟨⟨q, m⟩, hql, rfl⟩ := List.mem_map.1 hq
    obtain ⟨path, hpath, _⟩ := walk_of_mem_locations _ value hd.1 hpl
    obtain ⟨key', value', path', hmem, hpath', _⟩ := walk_of_mem_fieldLocations here rest hd.2 hql
    have hne : key ≠ key' := fun h => hkey (List.mem_map.2 ⟨_, hmem, h.symm⟩)
    refine segment_ne_of_ne hne here.segments path path' ?_
    rw [← hpath', ← congrArg Pointer.segments e, hpath, Pointer.child, List.append_assoc,
      List.singleton_append]

end

end Json

namespace Index

variable {index : Index} {place : Pointer} {node : Json}

theorem get?_child (index : Index) (place : Pointer) (segment : String) :
    index.get? (place.child segment) = (index.get? place).bind (·.step? segment) := by
  simp only [get?, Pointer.child, Json.walk?_append]
  congr 1
  funext child
  simp [Json.walk?]

theorem target?_of_some (h : index.get? place = some node) :
    index.target? place = some ⟨place, node, h⟩ := by
  unfold target?
  split
  · rename_i other ho
    cases h.symm.trans ho
    rfl
  · rename_i ho
    rw [h] at ho
    cases ho

theorem target?_of_none (h : index.get? place = none) : index.target? place = none := by
  unfold target?
  split
  · rename_i ho
    rw [h] at ho
    cases ho
  · rfl

theorem get?_root (index : Index) : index.get? .root = some index.document.root := rfl

theorem distinct_get? (h : index.get? place = some node) : node.DistinctKeys :=
  index.document.distinct.walk h

theorem get?_key {key : String} {value : Json} (h : index.get? place = some node)
    (hk : node.get? key = some value) : index.get? (place.child key) = some value := by
  simp [get?_child, h, Json.step?_key hk]

theorem get?_element {items : List Json} {n : Nat} {item : Json}
    (h : index.get? place = some (.array items)) (hn : items[n]? = some item) :
    index.get? (place.element n) = some item := by
  simp only [Pointer.element, get?_child, h, Option.bind_some, Json.step?_element hn]

theorem get?_of_mem_locations (h : (place, node) ∈ index.locations) :
    index.get? place = some node := by
  obtain ⟨path, hp, hw⟩ := Json.walk_of_mem_locations _ _ index.document.distinct h
  simp only [Pointer.root, List.nil_append] at hp
  rw [get?, hp, hw]

theorem mem_locations_iff : (place, node) ∈ index.locations ↔ index.get? place = some node :=
  ⟨get?_of_mem_locations, mem_locations⟩

theorem locations_nodup (index : Index) : (index.locations.map (·.1)).Nodup :=
  Json.locations_nodup _ _ index.document.distinct

/-- The fields of the object under a key, if there is one. -/
theorem fieldsUnder_stand {fields : List (String × Json)} (key : String)
    (h : index.get? place = some node)
    (hf : ((node.get? key).bind Json.object?).getD [] = fields) :
    (∀ field ∈ fields, index.get? ((place.child key).child field.1) = some field.2) ∧
      (fields.map (·.1)).Nodup := by
  cases ho : (node.get? key).bind Json.object? with
  | none =>
    rw [ho] at hf
    subst hf
    simp
  | some found =>
    rw [ho] at hf
    subst hf
    obtain ⟨value, hv, ho⟩ := Option.bind_eq_some_iff.1 ho
    have object : value = .object found := by
      cases value <;> simp [Json.object?] at ho
      rw [ho]
    subst object
    have hkey := get?_key h hv
    have distinct := (distinct_get? hkey).1
    exact ⟨fun field hm => get?_key hkey (lookup_of_mem distinct hm), distinct⟩

/-! ## Parts of a schema -/

theorem get?_inner {key : String} {inner : Inner node} (h : index.get? place = some node)
    (hi : node.inner? key = some inner) : index.get? (place.child key) = some inner.node := by
  simp only [Json.inner?] at hi
  split at hi
  · rename_i value hk
    cases hi
    exact get?_key h hk
  · cases hi

theorem get?_innerItems {key : String} {inners : List (Inner node)} {n : Nat} {inner : Inner node}
    (h : index.get? place = some node) (hi : node.innerItems? key = some inners)
    (hn : inners[n]? = some inner) :
    index.get? ((place.child key).element n) = some inner.node := by
  simp only [Json.innerItems?] at hi
  split at hi
  · rename_i items hk
    cases hi
    simp only [List.getElem?_map, Option.map_eq_some_iff] at hn
    obtain ⟨⟨item, hm⟩, hn, rfl⟩ := hn
    refine get?_element (get?_key h hk) ?_
    rw [List.getElem?_attach] at hn
    simp only [Option.pmap_eq_some_iff] at hn
    obtain ⟨a, _, ha, he⟩ := hn
    cases he
    exact ha
  · cases hi

theorem get?_innerFields {key name : String} {inners : List (String × Inner node)}
    {inner : Inner node} (h : index.get? place = some node)
    (hi : node.innerFields? key = some inners) (hm : (name, inner) ∈ inners) :
    index.get? ((place.child key).child name) = some inner.node := by
  simp only [Json.innerFields?] at hi
  split at hi
  · rename_i fields hk
    cases hi
    obtain ⟨⟨field, hf⟩, _, he⟩ := List.mem_map.1 hm
    cases he
    have hfields := get?_key h hk
    exact get?_key hfields (lookup_of_mem (distinct_get? hfields).1 hf)
  · cases hi

theorem innerFields_distinct {key : String} {inners : List (String × Inner node)}
    (h : index.get? place = some node) (hi : node.innerFields? key = some inners) :
    (inners.map (·.1)).Nodup := by
  simp only [Json.innerFields?] at hi
  split at hi
  · rename_i fields hk
    cases hi
    have hd := (distinct_get? (get?_key h hk)).1
    rw [List.map_map]
    change (fields.attach.map fun field => field.val.1).Nodup
    rwa [List.attach_map_val]
  · cases hi

/-! ## References -/

/-- A reference stands at the first place and leads to the second. -/
def Link (index : Index) (source target : Pointer) : Prop :=
  ∃ node reference found, index.get? source = some node ∧
    Schema.reference? node = some reference ∧
    (Pointer.ofReference? reference).bind index.locate? = some found ∧ found.pointer = target

/-- The error is about a reference of the document that leads nowhere, or that only leads from
reference to reference and back to itself. -/
def Broken (index : Index) (error : CompileError) : Prop :=
  ∃ reference place node, error = .unresolvedReference reference place ∧
    index.get? place = some node ∧ Schema.reference? node = some reference ∧
    ((Pointer.ofReference? reference).bind index.locate? = none ∨
      Relation.TransGen index.Link place place)

theorem locate?_of_resolve {reference : String} {target : index.Target}
    (h : index.resolve reference place = .ok target) :
    (Pointer.ofReference? reference).bind index.locate? = some target := by
  unfold resolve at h
  split at h
  · rename_i found
    cases h
    exact found
  · cases h

theorem broken_of_resolve {reference : String} {error : CompileError}
    (hp : index.get? place = some node) (hr : Schema.reference? node = some reference)
    (h : index.resolve reference place = .error error) : index.Broken error := by
  unfold resolve at h
  split at h
  · cases h
  · rename_i missing
    cases h
    exact ⟨reference, place, node, rfl, hp, hr, .inl missing⟩

end Index

end ApiTypes
