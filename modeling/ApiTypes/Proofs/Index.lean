import ApiTypes.Proofs.Traversal

/-!
# What an index holds

The index of a document is the document, place by place:

* `Json.leads_iff`: a path leads to a node if each of its segments is the key of a member or the
  number of an element;
* `Index.run_root`, `Index.lookup_locations`: the locations are what a walk from the root records,
  and looking a place up among them is walking to it;
* `Index.Means`: what a pointer means in a document with a root alias;
* `Index.resolve_eq_ok_iff`: a reference resolves to what it reaches;
* `Index.holds_document`: which places there are, in which order, what stands there, and which of
  them a reference leads to.
-/

namespace ApiTypes

namespace Json

/-- A path leads from a node to another: each segment is the key of a member of an object, or the
plain decimal form of the number of an element of an array. -/
inductive Leads : Json → List String → Json → Prop
  | here (node : Json) : Leads node [] node
  | member {fields : List (String × Json)} {key : String} {value target : Json}
      {path : List String} (found : (key, value) ∈ fields) (later : Leads value path target) :
      Leads (.object fields) (key :: path) target
  | element {items : List Json} {number : Nat} {item target : Json} {path : List String}
      (found : items[number]? = some item) (later : Leads item path target) :
      Leads (.array items) (toString number :: path) target

theorem Leads.of_step {node child target : Json} {segment : String} {path : List String}
    (hs : node.step? segment = some child) (later : child.Leads path target) :
    node.Leads (segment :: path) target := by
  cases node with
  | object fields => exact .member (mem_of_lookup hs) later
  | array items =>
    obtain ⟨number, hn, hi⟩ := Option.bind_eq_some_iff.1 hs
    exact toString_elementNumber hn ▸ .element hi later
  | _ => cases hs

theorem leads_of_walk {node target : Json} {path : List String}
    (h : node.walk? path = some target) : node.Leads path target := by
  induction path generalizing node with
  | nil =>
    cases h
    exact .here _
  | cons segment path ih =>
    obtain ⟨child, hs, later⟩ := Option.bind_eq_some_iff.1 h
    exact .of_step hs (ih later)

theorem walk_of_leads {node target : Json} {path : List String} (hd : node.DistinctKeys)
    (h : node.Leads path target) : node.walk? path = some target := by
  induction h with
  | here => rfl
  | member found _ ih =>
    have hs := lookup_of_mem hd.1 found
    exact Option.bind_eq_some_iff.2 ⟨_, hs, ih (hd.step hs)⟩
  | element found _ ih =>
    have hs := step?_element found
    exact Option.bind_eq_some_iff.2 ⟨_, hs, ih (hd.step hs)⟩

theorem leads_iff {node target : Json} {path : List String} (hd : node.DistinctKeys) :
    node.Leads path target ↔ node.walk? path = some target :=
  ⟨walk_of_leads hd, leads_of_walk⟩

end Json

namespace Index

variable {index : Index} {place : Pointer} {node : Json}

/-! ## Places -/

theorem get?_eq_some_iff :
    index.get? place = some node ↔ index.document.root.Leads place.segments node :=
  (Json.leads_iff index.document.distinct).symm

/-- A walk from the root comes by every place of the document. -/
theorem run_root (index : Index) :
    Walk.run [] [(.root, index.document.root)] = index.locations := by
  have once : Walk.pending [(.root, index.document.root)] = index.locations := by
    simp only [Walk.pending, List.flatMap_singleton]
    rfl
  rw [Walk.run_eq [] _ (by rw [List.nil_append, once]; exact index.locations_nodup),
    List.nil_append, once]

theorem locations_inOrder (index : Index) :
    (index.locations.map (·.1)).Pairwise fun p q =>
      index.document.root.InOrder p.segments q.segments := by
  refine (Json.locations_inOrder .root _ index.document.distinct).imp ?_
  rintro p q ⟨path, path', hp, hq, order⟩
  rwa [hp, hq]

theorem lookup_locations (index : Index) (place : Pointer) :
    index.locations.lookup place = index.get? place := by
  refine Option.ext fun node => ⟨fun found => ?_, fun found => ?_⟩
  · exact get?_of_mem_locations (mem_of_lookup found)
  · exact lookup_of_mem index.locations_nodup (mem_locations found)

/-! ## References -/

theorem pathAfter?_eq_some_iff {beginning path rest : List String} :
    pathAfter? beginning path = some rest ↔ path = beginning ++ rest := by
  rw [pathAfter?, Option.ite_none_right_eq_some, List.isPrefixOf_iff_prefix]
  constructor
  · rintro ⟨⟨rest', rfl⟩, h⟩
    cases h
    rw [List.drop_left]
  · rintro rfl
    exact ⟨List.prefix_append _ _, congrArg some List.drop_left⟩

/-- What a pointer from a reference means: the node at this place, or if there is none and the
pointer goes on from the root alias, the node at the place that is left of it. -/
inductive Means (index : Index) (named : Pointer) : Pointer → Json → Prop
  | direct {node : Json} (found : index.document.root.Leads named.segments node) :
      Means index named named node
  | aliased {beginning place : Pointer} {node : Json}
      (missing : ∀ other, ¬index.document.root.Leads named.segments other)
      (hb : index.rootAlias = some beginning)
      (split : named.segments = beginning.segments ++ place.segments)
      (found : index.document.root.Leads place.segments node) : Means index named place node

theorem pointer_of_target? {target : index.Target} (h : index.target? place = some target) :
    target.pointer = place := by
  cases hp : index.get? place with
  | none => cases (target?_of_none hp).symm.trans h
  | some node =>
    cases (target?_of_some hp).symm.trans h
    rfl

theorem means_of_locate? {named : Pointer} {target : index.Target}
    (h : index.locate? named = some target) : index.Means named target.pointer target.node := by
  have stands := get?_eq_some_iff.1 target.found
  cases hn : index.get? named with
  | some node =>
    rw [locate?, target?_of_some hn] at h
    cases h
    exact .direct stands
  | none =>
    have missing (other : Json) : ¬index.document.root.Leads named.segments other := by
      intro found
      cases hn.symm.trans (get?_eq_some_iff.2 found)
    rw [locate?, target?_of_none hn] at h
    cases hb : index.rootAlias with
    | none =>
      rw [hb] at h
      cases h
    | some beginning =>
      rw [hb] at h
      obtain ⟨rest, split, ht⟩ := Option.bind_eq_some_iff.1 h
      have same := pointer_of_target? ht
      refine .aliased missing hb ?_ stands
      rw [same, pathAfter?_eq_some_iff.1 split]

theorem Means.locate? {named : Pointer} (h : index.Means named place node) :
    ∃ found, index.locate? named = some ⟨place, node, found⟩ := by
  cases h with
  | direct found =>
    have stands := get?_eq_some_iff.2 found
    refine ⟨stands, ?_⟩
    rw [Index.locate?, target?_of_some stands]
  | aliased missing hb split found =>
    have stands := get?_eq_some_iff.2 found
    have absent : index.get? named = none :=
      Option.eq_none_iff_forall_ne_some.2 fun other ho => missing other (get?_eq_some_iff.1 ho)
    refine ⟨stands, ?_⟩
    rw [Index.locate?, target?_of_none absent, hb]
    exact Option.bind_eq_some_iff.2
      ⟨place.segments, pathAfter?_eq_some_iff.2 split, target?_of_some stands⟩

/-- What a reference leads to: it names a place, and the pointer to it means the node. -/
def Reaches (index : Index) (reference : String) (place : Pointer) (node : Json) : Prop :=
  ∃ named, Pointer.ofReference? reference = some named ∧ index.Means named place node

theorem resolve_eq_ok_iff {reference : String} {spot : Pointer} :
    (∃ found, index.resolve reference place = .ok ⟨spot, node, found⟩) ↔
      index.Reaches reference spot node := by
  constructor
  · rintro ⟨found, h⟩
    obtain ⟨named, hn, hl⟩ := Option.bind_eq_some_iff.1 (locate?_of_resolve h)
    exact ⟨named, hn, means_of_locate? hl⟩
  · rintro ⟨named, hn, means⟩
    obtain ⟨found, hl⟩ := means.locate?
    refine ⟨found, ?_⟩
    rw [resolve, Option.bind_eq_some_iff.2 ⟨named, hn, hl⟩]

theorem resolve_eq_error {reference : String}
    (nowhere : ∀ spot node, ¬index.Reaches reference spot node) :
    index.resolve reference place = .error (.unresolvedReference reference place) := by
  cases h : index.resolve reference place with
  | ok target => exact (nowhere _ _ (resolve_eq_ok_iff.1 ⟨target.found, h⟩)).elim
  | error error =>
    unfold resolve at h
    split at h
    · cases h
    · exact h.symm

/-- The index of a document is the document: a walk with a stack comes by its locations, each
place once and in the order of the document, and at each stands the node that its path leads to.
A reference resolves to the place it reaches, and to nothing when it reaches none. -/
theorem holds_document (index : Index) :
    Walk.run [] [(.root, index.document.root)] = index.locations ∧
    (index.locations.map (·.1)).Nodup ∧
    ((index.locations.map (·.1)).Pairwise fun p q =>
      index.document.root.InOrder p.segments q.segments) ∧
    (∀ place node, (place, node) ∈ index.locations ↔
      index.document.root.Leads place.segments node) ∧
    (∀ place, index.locations.lookup place = index.get? place) ∧
    (∀ place node, index.get? place = some node ↔
      index.document.root.Leads place.segments node) ∧
    (∀ reference place spot node,
      (∃ found, index.resolve reference place = .ok ⟨spot, node, found⟩) ↔
        index.Reaches reference spot node) ∧
    (∀ reference place, (∀ spot node, ¬index.Reaches reference spot node) →
      index.resolve reference place = .error (.unresolvedReference reference place)) ∧
    (∀ (target : index.Target) path, target.isCycle path = true ↔ target.pointer ∈ path) := by
  refine ⟨index.run_root, index.locations_nodup, index.locations_inOrder, fun place node => ?_,
    index.lookup_locations, fun place node => get?_eq_some_iff,
    fun reference place spot node => resolve_eq_ok_iff, fun reference place => resolve_eq_error,
    fun target path => List.contains_iff_mem⟩
  rw [mem_locations_iff, get?_eq_some_iff]

end Index

end ApiTypes
