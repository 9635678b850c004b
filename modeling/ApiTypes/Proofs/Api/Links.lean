import ApiTypes.Proofs.Api.Outline

/-!
# Links of the wrapper

The wrapper leads from every path and method of a document to the declarations made of that
operation and of no other.

* `candidates_keys_eq`: the operations collected are those of the places of operations, in document
  order;
* `operationKeys_eq`: these places are told by the keys of `paths` and of what is under them;
* `assemble_links`: the wrapper has a property for every path with an operation and for every method
  of it, and these refer to the declarations of the places within that operation.
-/

namespace ApiTypes

namespace Json

/-- What is made of the children of a node, if of one key only, is made of the child under that key. -/
theorem flatMap_children_of_key {α : Type} {node : Json} {key : String} (hd : node.DistinctKeys)
    {f : String × Json → List α} (other : ∀ child ∈ node.children, child.1 ≠ key → f child = []) :
    node.children.flatMap f =
      match node.step? key with
      | some child => f (key, child)
      | none => [] := by
  have distinct := keys_nodup hd
  cases hs : node.step? key with
  | none =>
    refine List.flatMap_eq_nil_iff.2 fun child hc => other child hc fun same => ?_
    have found := step?_of_mem_children hd hc
    rw [same, hs] at found
    cases found
  | some child =>
    obtain ⟨before, after, split⟩ := List.append_of_mem (mem_children_of_step? hs)
    unfold keys at distinct
    rw [split] at distinct other ⊢
    simp only [List.map_append, List.map_cons, List.nodup_append, List.nodup_cons] at distinct
    obtain ⟨-, ⟨absent, -⟩, apart⟩ := distinct
    have first : before.flatMap f = [] := by
      refine List.flatMap_eq_nil_iff.2 fun c hc => other c (by simp [hc]) fun same => ?_
      exact apart c.1 (List.mem_map_of_mem hc) key List.mem_cons_self same
    have last : after.flatMap f = [] := by
      refine List.flatMap_eq_nil_iff.2 fun c hc => other c (by simp [hc]) fun same => ?_
      exact absent (same ▸ List.mem_map_of_mem hc)
    simp only [List.flatMap_append, List.flatMap_cons, first, last, List.nil_append,
      List.append_nil]

end Json

namespace Api

open Typing

/-! ## Paths and methods of a document -/

/-- What the steps from the node at a place to its children are called. -/
def keysAt (index : Index) (place : Pointer) : List String :=
  ((index.get? place).map Json.keys).getD []

/-- The methods under a path that are operations, in document order. -/
def methodsAt (index : Index) (path : String) : List String :=
  (keysAt index ⟨["paths", path]⟩).filter methods.contains

/-- The paths that have an operation, in document order. -/
def operationPaths (index : Index) : List String :=
  (keysAt index ⟨["paths"]⟩).filter fun path => !(methodsAt index path).isEmpty

theorem keysAt_nodup (index : Index) (place : Pointer) : (keysAt index place).Nodup := by
  unfold keysAt
  cases h : index.get? place with
  | none => exact List.nodup_nil
  | some node => exact Json.keys_nodup (Index.distinct_get? h)

/-- Paths and methods, path by path. -/
def groupedKeys (paths : List String) (methods : String → List String) : List (String × String) :=
  paths.flatMap fun path => (methods path).map fun method => (path, method)

section
variable {place : Pointer} {node : Json}

/-- The paths and methods of the operations among the places from a node on. -/
def operationKeysFrom (here : Pointer) (node : Json) : List (String × String) :=
  (node.locations here).flatMap fun location => (operationAt? location.1).toList

theorem operationAt?_deep {deep : Pointer} (h : 3 < deep.depth) : operationAt? deep = none := by
  cases ho : operationAt? deep with
  | none => rfl
  | some key =>
    rw [operationAt?_eq_some ho] at h
    simp [Pointer.depth] at h

theorem operationKeysFrom_eq (here : Pointer) (node : Json) (h : operationAt? here = none) :
    operationKeysFrom here node = node.children.flatMap fun child =>
      operationKeysFrom (here.child child.1) child.2 := by
  unfold operationKeysFrom
  rw [Json.locations_eq, List.flatMap_cons, h, Option.toList_none, List.nil_append,
    List.flatMap_assoc]

theorem operationKeysFrom_method (path method : String) (hd : node.DistinctKeys) :
    operationKeysFrom ⟨["paths", path, method]⟩ node =
      if methods.contains method then [(path, method)] else [] := by
  unfold operationKeysFrom
  rw [Json.flatMap_locations_shallow hd]
  · simp only [operationAt?]
    split <;> rfl
  · intro location deeper
    have deeper : 3 < location.1.depth := deeper
    rw [operationAt?_deep deeper, Option.toList_none]

theorem map_filter_eq_flatMap {α β : Type} (p : α → Bool) (f : α → β) (as : List α) :
    (as.filter p).map f = as.flatMap fun a => if p a then [f a] else [] := by
  induction as with
  | nil => rfl
  | cons a rest ih =>
    rw [List.flatMap_cons, ← ih]
    cases hp : p a with
    | false => rw [List.filter_cons_of_neg (by simp [hp])]; rfl
    | true => rw [List.filter_cons_of_pos hp]; rfl

theorem operationKeysFrom_path (path : String) (hd : node.DistinctKeys) :
    operationKeysFrom ⟨["paths", path]⟩ node =
      (node.keys.filter methods.contains).map fun method => (path, method) := by
  rw [operationKeysFrom_eq _ _ rfl, map_filter_eq_flatMap, Json.keys, List.flatMap_map]
  refine List.flatMap_congr fun child hc => ?_
  exact operationKeysFrom_method path child.1 (hd.step (Json.step?_of_mem_children hd hc))

theorem operationKeysFrom_elsewhere {key : String} (h : key ≠ "paths") (hd : node.DistinctKeys) :
    operationKeysFrom ⟨[key]⟩ node = [] := by
  refine List.flatMap_eq_nil_iff.2 fun location hl => ?_
  obtain ⟨path, hp, -⟩ := Json.walk_of_mem_locations _ node hd hl
  cases ho : operationAt? location.1 with
  | none => rfl
  | some found =>
    rw [operationAt?_eq_some ho] at hp
    exact absurd (List.cons.inj hp).1.symm h

end

/-- The operations of a document are told by the keys under `paths`. -/
theorem operationKeys_eq (index : Index) :
    (index.locations.flatMap fun location => (operationAt? location.1).toList) =
      groupedKeys (keysAt index ⟨["paths"]⟩) (methodsAt index) := by
  have distinct := index.document.distinct
  change operationKeysFrom .root index.document.root = _
  have elsewhere : ∀ child ∈ index.document.root.children, child.1 ≠ "paths" →
      operationKeysFrom (Pointer.root.child child.1) child.2 = [] := fun child hc other =>
    operationKeysFrom_elsewhere other (distinct.step (Json.step?_of_mem_children distinct hc))
  rw [operationKeysFrom_eq _ _ rfl, Json.flatMap_children_of_key distinct elsewhere]
  have under (path : List String) : index.get? ⟨path⟩ = index.document.root.walk? path := rfl
  unfold groupedKeys
  cases hs : index.document.root.step? "paths" with
  | none =>
    have nothing : index.get? ⟨["paths"]⟩ = none := by simp [under, Json.walk?, hs]
    simp [keysAt, nothing]
  | some paths =>
    have stands : index.get? ⟨["paths"]⟩ = some paths := by simp [under, Json.walk?, hs]
    have paths_distinct := Index.distinct_get? stands
    simp only [keysAt, stands, Option.map_some, Option.getD_some]
    change operationKeysFrom ⟨["paths"]⟩ paths = _
    rw [operationKeysFrom_eq _ _ rfl, Json.keys, List.flatMap_map]
    refine List.flatMap_congr fun child hc => ?_
    have step := Json.step?_of_mem_children paths_distinct hc
    have child_stands : index.get? ⟨["paths", child.1]⟩ = some child.2 := by
      simp [under, Json.walk?, hs, step]
    refine (operationKeysFrom_path child.1 (paths_distinct.step step)).trans ?_
    simp only [methodsAt, keysAt, child_stands, Option.map_some, Option.getD_some]

/-! ## Operations grouped by path -/

theorem foldl_repeated (paths : List String) (path : String) (times : List String) :
    (times.map fun _ => path).foldl
        (fun paths path => if paths.contains path then paths else paths ++ [path]) paths =
      if times.isEmpty || paths.contains path then paths else paths ++ [path] := by
  induction times generalizing paths with
  | nil => rfl
  | cons first rest ih =>
    rw [List.map_cons, List.foldl_cons, ih]
    by_cases known : path ∈ paths <;> simp [known]

theorem foldl_grouped (methods : String → List String) {paths start : List String}
    (distinct : paths.Nodup) (new : ∀ path ∈ paths, path ∉ start) :
    ((groupedKeys paths methods).map (·.1)).foldl
        (fun paths path => if paths.contains path then paths else paths ++ [path]) start =
      start ++ paths.filter fun path => !(methods path).isEmpty := by
  induction paths generalizing start with
  | nil => simp [groupedKeys]
  | cons path rest ih =>
    obtain ⟨absent, distinct⟩ := List.nodup_cons.1 distinct
    have unknown : path ∉ start := new path List.mem_cons_self
    have later : ∀ other ∈ rest, other ∉ start :=
      fun other hm => new other (List.mem_cons_of_mem _ hm)
    unfold groupedKeys at ih ⊢
    rw [List.flatMap_cons, List.map_append, List.foldl_append, List.map_map]
    change List.foldl _ (((methods path).map fun _ => path).foldl _ start) _ = _
    rw [foldl_repeated]
    cases hm : (methods path).isEmpty with
    | true => simp only [Bool.true_or, if_true, ih distinct later, List.filter_cons, hm,
        Bool.not_true, Bool.false_eq_true, if_false]
    | false =>
      have fresh : ∀ other ∈ rest, other ∉ start ++ [path] := by
        intro other ho hs
        rcases List.mem_append.1 hs with hs | hs
        · exact later other ho hs
        · exact absent (List.mem_singleton.1 hs ▸ ho)
      have known : start.contains path = false := by simp [unknown]
      rw [known, Bool.or_self, if_neg Bool.false_ne_true, ih distinct fresh,
        List.filter_cons_of_pos (by rw [hm]; rfl), List.append_assoc, List.singleton_append]

/-- The paths of operations that come path by path. -/
theorem pathsOf_grouped {operations : List Operation} {paths : List String}
    {methods : String → List String} (distinct : paths.Nodup)
    (keys : operations.map Operation.key = groupedKeys paths methods) :
    pathsOf operations = paths.filter fun path => !(methods path).isEmpty := by
  have grouped := foldl_grouped methods distinct
    (fun path _ => List.not_mem_nil : ∀ path ∈ paths, path ∉ [])
  rw [List.nil_append, ← keys, List.map_map, List.foldl_map] at grouped
  exact grouped

theorem filter_grouped {paths : List String} (methods : String → List String)
    (distinct : paths.Nodup) {path : String} (h : path ∈ paths) :
    (groupedKeys paths methods).filter (fun key => key.1 == path) =
      (methods path).map fun method => (path, method) := by
  have own (other : String) : ((methods other).map fun method => (other, method)).filter
      (fun key => key.1 == path) =
        if other = path then (methods path).map (fun method => (path, method)) else [] := by
    by_cases same : other = path
    · subst same
      rw [if_pos rfl]
      exact List.filter_eq_self.2 fun key hk => by
        obtain ⟨_, _, rfl⟩ := List.mem_map.1 hk
        exact beq_self_eq_true _
    · rw [if_neg same]
      refine List.filter_eq_nil_iff.2 fun key hk => ?_
      obtain ⟨_, _, rfl⟩ := List.mem_map.1 hk
      simpa using same
  unfold groupedKeys
  rw [List.filter_flatMap]
  simp only [own]
  induction paths with
  | nil => cases h
  | cons first rest ih =>
    obtain ⟨absent, distinct⟩ := List.nodup_cons.1 distinct
    rw [List.flatMap_cons]
    rcases List.mem_cons.1 h with rfl | h
    · rw [if_pos rfl]
      refine (List.append_right_eq_self).2 (List.flatMap_eq_nil_iff.2 fun other ho => ?_)
      exact if_neg fun (same : other = path) => absent (same ▸ ho)
    · rw [if_neg fun (same : first = path) => absent (same ▸ h), List.nil_append]
      exact ih distinct h

/-! ## Operations collected -/

section
variable {index : Index} {dialect : Dialect} {before after : NameTable}

theorem componentKind?_of_operation {place : Pointer} {key : String × String}
    (h : operationAt? place = some key) : componentKind? dialect false place = none := by
  rw [operationAt?_eq_some h]
  cases dialect <;> rfl

/-- A place gives the operation there, if one is there. -/
theorem candidateAt_keys {here : Located} {candidate : Option Candidate}
    (h : (candidateAt index dialect false here).run before = .ok (candidate, after)) :
    (operationsOf candidate.toList).map Operation.key = (operationAt? here.place).toList := by
  cases ho : operationAt? here.place with
  | none =>
    have other : operationsOf candidate.toList = [] := by
      refine List.eq_nil_iff_forall_not_mem.2 fun operation hm => ?_
      rw [Option.mem_toList.1 (mem_operationsOf hm)] at h
      have here := (candidateAt_plannedAt h).1
      rw [ho] at here
      cases here
    rw [other]
    rfl
  | some key =>
    unfold candidateAt at h
    rw [componentKind?_of_operation ho] at h
    simp only [Bool.false_eq_true, if_false, ho] at h
    obtain ⟨operation, _, hp, h⟩ := run_bind_eq_ok.1 h
    obtain ⟨rfl, -⟩ := run_pure_eq_ok.1 h
    obtain ⟨path, method, -⟩ := Operation.plan_gives hp
    exact congrArg (fun key => [key]) (Prod.ext path method)

/-- The operations collected are those of the places of operations, in their order. -/
theorem candidates_keys_eq {locations : List (Pointer × Json)} {collected : List Candidate}
    (h : (candidates index dialect false locations).run before = .ok (collected, after)) :
    (operationsOf collected).map Operation.key =
      locations.flatMap fun location => (operationAt? location.1).toList := by
  induction locations generalizing before after collected with
  | nil =>
    obtain ⟨rfl, -⟩ := run_pure_eq_ok.1 h
    rfl
  | cons location rest ih =>
    obtain ⟨candidate, _, hc, h⟩ := run_bind_eq_ok.1 h
    obtain ⟨later, _, hl, h⟩ := run_bind_eq_ok.1 h
    obtain ⟨rfl, -⟩ := run_pure_eq_ok.1 h
    rw [operationsOf_append, List.map_append, candidateAt_keys hc, ih hl, List.flatMap_cons]

end

/-! ## Links -/

/-- The name is that of the declaration of a place, of the kind given, and of no other. -/
def Names (declarations : List Declaration) (name : String) (place : Pointer)
    (kind : DeclarationKind) : Prop :=
  ∃ declaration ∈ declarations, declaration.name = name ∧ heading declaration = (place, kind) ∧
    ∀ other ∈ declarations, other.name = name ∨ other.pointer = place → other = declaration

/-- A property with a key that is to refer to the declaration of a place. -/
structure Slot where
  key : String
  place : Pointer
  kind : DeclarationKind

/-- The member has the key of the slot and refers to the declaration of its place. -/
def Linked (declarations : List Declaration) (slot : Slot) (member : Member) : Prop :=
  ∃ name isOptional, member = .plain slot.key (.ref name) isOptional ∧
    Names declarations name slot.place slot.kind

namespace Operation

/-- The slots for the parameters and the body of an operation, where it has them. -/
def partSlots (index : Index) (dialect : Dialect) (here : Located) : List Slot :=
  (if hasParameters index here.place then
    [⟨"parameters", here.place.child "parameters", .operationParameters⟩] else []) ++
    (if hasBody index dialect here then
      [⟨"requestBody", here.place.child "requestBody", .operationRequestBody⟩] else [])

/-- The slots for the responses of an operation, one for each status. -/
def responseSlots (here : Located) : List Slot :=
  (statuses here.node).map fun status =>
    ⟨status, (here.place.child "responses").child status, .operationResponse⟩

end Operation

section
variable (index : Index) (dialect : Dialect) (declarations : List Declaration)

/-- The type links to all declarations of the operation at a place. -/
def OperationLinked (here : Located) (type : TypeExpr) : Prop :=
  ∃ parts responses,
    type = .object (parts ++ [Member.plain "responses" (.object responses) false]) ∧
    List.Forall₂ (Linked declarations) (Operation.partSlots index dialect here) parts ∧
    List.Forall₂ (Linked declarations) (Operation.responseSlots here) responses

def MethodLinked (path method : String) (member : Member) : Prop :=
  ∃ node type doc, index.get? ⟨["paths", path, method]⟩ = some node ∧
    member = .property method type false false doc ∧
    OperationLinked index dialect declarations ⟨⟨["paths", path, method]⟩, node⟩ type

def PathLinked (path : String) (member : Member) : Prop :=
  ∃ members, member = .plain path (.object members) false ∧
    List.Forall₂ (MethodLinked index dialect declarations path) (methodsAt index path) members

end

section
variable {index : Index} {dialect : Dialect} {rawSchema : Bool} {declarations : List Declaration}
  {candidates : List Candidate} {state : State} {declared promoted : List Declaration}

/-- The names in an operation are those of the declarations of its places. -/
structure Operation.Named (declarations : List Declaration) (operation : Operation) : Prop where
  parameters : ∀ named ∈ operation.parametersNamed,
    Names declarations named.name named.pointer .operationParameters
  body : ∀ entry ∈ operation.body,
    Names declarations entry.2.name entry.2.pointer .operationRequestBody
  responses : ∀ response ∈ operation.responses,
    Names declarations response.name response.written.place .operationResponse

/-- Besides the wrapper, a declaration has both its name and its place to itself. -/
theorem Assembled.names_of_mem
    (h : Assembled index dialect rawSchema candidates state declared promoted)
    {declaration : Declaration} (hm : declaration ∈ declared ++ promoted)
    (apart : declaration.pointer ≠ ⟨["paths"]⟩) :
    Names (withWrapper rawSchema candidates (declared ++ promoted)) declaration.name
      declaration.pointer declaration.kind := by
  have member : declaration ∈ withWrapper rawSchema candidates (declared ++ promoted) :=
    mem_withWrapper.2 (.inl hm)
  refine ⟨declaration, member, rfl, rfl, fun other ho same => ?_⟩
  rcases same with same | same
  · exact List.inj_on_of_nodup_map h.names_nodup ho member same
  · rcases mem_withWrapper.1 ho with ho | ⟨-, rfl⟩
    · exact List.inj_on_of_nodup_map h.pointers_nodup ho hm same
    · exact absurd same.symm apart

/-- The declarations of an operation are of places below it. -/
theorem Operation.depth_lt_of_mem_outline {here : Located} {entry : Pointer × DeclarationKind}
    (h : entry ∈ Operation.outline index dialect here) : here.place.depth < entry.1.depth := by
  unfold Operation.outline at h
  rcases List.mem_append.1 h with h | h
  · rcases List.mem_append.1 h with h | h <;> split at h
    · rw [List.mem_singleton.1 h]
      simp [Pointer.depth, Pointer.child]
    · cases h
    · rw [List.mem_singleton.1 h]
      simp [Pointer.depth, Pointer.child]
    · cases h
  · obtain ⟨status, -, rfl⟩ := List.mem_map.1 h
    simp [Pointer.depth, Pointer.child]

theorem Assembled.operation_named
    (h : Assembled index dialect rawSchema candidates state declared promoted)
    {operation : Operation} (hm : operation ∈ operationsOf candidates) {here : Located}
    (inner : 1 ≤ here.place.depth) (outlined : operation.Outlined index dialect here) :
    operation.Named (withWrapper rawSchema candidates (declared ++ promoted)) := by
  obtain ⟨blocks, made, rfl⟩ := h.declared
  obtain ⟨block, hb, of_operation⟩ := exists_right_of_forall₂ made (mem_operationsOf hm)
  have named {declaration : Declaration} (hd : declaration ∈ block) :
      Names (withWrapper rawSchema candidates (blocks.flatten ++ promoted)) declaration.name
        declaration.pointer declaration.kind := by
    refine h.names_of_mem (List.mem_append_left _ (List.mem_flatten.2 ⟨block, hb, hd⟩)) ?_
    have places : block.map heading = Operation.outline index dialect here :=
      of_operation.headings_eq.trans outlined.headings_eq
    have below := Operation.depth_lt_of_mem_outline (places ▸ List.mem_map_of_mem hd)
    rintro same
    rw [heading, same] at below
    exact absurd inner (Nat.not_le.2 below)
  obtain ⟨ofParameters, ofBody, ofResponses, hp, hbody, hr, rfl⟩ := of_operation
  refine ⟨fun found hf => ?parameters, fun entry he => ?body, fun response hm => ?responses⟩
  case parameters =>
    unfold ParametersDeclared at hp
    rw [Option.mem_def.1 hf] at hp
    obtain ⟨type, -, rfl⟩ := hp
    exact named (List.mem_append_left _ (List.mem_append_left _ List.mem_cons_self))
  case body =>
    unfold BodyDeclared at hbody
    rw [Option.mem_def.1 he] at hbody
    obtain ⟨type, -, rfl⟩ := hbody
    exact named (List.mem_append_left _ (List.mem_append_right _ List.mem_cons_self))
  case responses =>
    obtain ⟨declaration, hd, type, -, rfl⟩ := exists_right_of_forall₂ hr hm
    exact named (List.mem_append_right _ hd)

theorem Operation.Outlined.slots_eq {operation : Operation} {here : Located}
    (h : operation.Outlined index dialect here) :
    Operation.partSlots index dialect here =
        (operation.parametersNamed.toList.map fun named =>
          ⟨"parameters", named.pointer, .operationParameters⟩) ++
        (operation.body.toList.map fun entry =>
          ⟨"requestBody", entry.2.pointer, .operationRequestBody⟩) ∧
      Operation.responseSlots here = operation.responses.map fun response =>
        ⟨response.status, response.written.place, .operationResponse⟩ := by
  have parameters := congrArg (fun place : Option Pointer => place.toList.map fun place =>
    (⟨"parameters", place, .operationParameters⟩ : Slot)) h.parameters
  have body := congrArg (fun place : Option Pointer => place.toList.map fun place =>
    (⟨"requestBody", place, .operationRequestBody⟩ : Slot)) h.body
  have responses := congrArg (List.map fun entry : String × Pointer =>
    (⟨entry.1, entry.2, .operationResponse⟩ : Slot)) h.responses
  simp only [Option.toList_map, List.map_map, Function.comp_def] at parameters body responses
  constructor
  · rw [parameters, body, Operation.partSlots]
    split <;> split <;> rfl
  · exact responses.symm

theorem Operation.members_linked {operation : Operation} {here : Located}
    (outlined : operation.Outlined index dialect here) (named : operation.Named declarations) :
    OperationLinked index dialect declarations here (.object (operationMembers operation)) := by
  obtain ⟨parts, responses⟩ := outlined.slots_eq
  refine ⟨_, _, rfl, ?_, ?_⟩
  · rw [parts]
    apply List.rel_append
    all_goals simp only [List.forall₂_map_left_iff, List.forall₂_map_right_iff, List.forall₂_same,
      Option.mem_toList]
    · exact fun found hf => ⟨found.name, _, rfl, named.parameters found hf⟩
    · exact fun entry he => ⟨entry.2.name, _, rfl, named.body entry he⟩
  · rw [responses]
    simp only [List.forall₂_map_left_iff, List.forall₂_map_right_iff, List.forall₂_same]
    exact fun response hm => ⟨response.name, _, rfl, named.responses response hm⟩

/-! ## The wrapper -/

/-- The operations collected lie path by path, and each is linked to its declarations. -/
theorem Assembled.operations_linked
    (h : Assembled index dialect false candidates state declared promoted) :
    (operationsOf candidates).map Operation.key =
        groupedKeys (keysAt index ⟨["paths"]⟩) (methodsAt index) ∧
      ∀ operation ∈ operationsOf candidates,
        MethodLinked index dialect (withWrapper false candidates (declared ++ promoted))
          operation.path operation.method (methodMember operation) := by
  obtain ⟨names, collected⟩ := h.collected
  refine ⟨(candidates_keys_eq collected).trans (operationKeys_eq index), fun operation hm => ?_⟩
  obtain ⟨⟨place, node⟩, hl, key, _, _, planned⟩ :=
    operation_plannedAt collected (mem_operationsOf hm)
  have outlined := Operation.plan_outlined planned
  have at_place : place = ⟨["paths", operation.path, operation.method]⟩ := operationAt?_eq_some key
  subst at_place
  have inner : 1 ≤ Pointer.depth ⟨["paths", operation.path, operation.method]⟩ := by
    simp [Pointer.depth]
  have named := h.operation_named hm inner outlined
  exact ⟨node, _, operation.doc, Index.get?_of_mem_locations hl, rfl,
    Operation.members_linked outlined named⟩

/-- What lies path by path has, for each path, the members of its methods. -/
theorem path_linked {operations : List Operation} {path : String}
    (hp : path ∈ keysAt index ⟨["paths"]⟩)
    (keys : operations.map Operation.key = groupedKeys (keysAt index ⟨["paths"]⟩) (methodsAt index))
    (linked : ∀ operation ∈ operations, MethodLinked index dialect declarations operation.path
      operation.method (methodMember operation)) :
    PathLinked index dialect declarations path (pathMember operations path) := by
  have own := filter_grouped (methodsAt index) (keysAt_nodup index ⟨["paths"]⟩) hp
  rw [← keys, List.filter_map, ← List.forall₂_eq_eq_eq, List.forall₂_map_left_iff,
    List.forall₂_map_right_iff] at own
  have among : ∀ operation ∈ operations.filter ((fun key => key.1 == path) ∘ Operation.key),
      MethodLinked index dialect declarations operation.path operation.method
        (methodMember operation) := fun operation hm => linked operation (List.mem_filter.1 hm).1
  refine ⟨_, rfl, List.forall₂_map_right_iff.2 ?_⟩
  refine ((List.forall₂_and_left _ _).2 ⟨among, own⟩).flip.imp ?_
  rintro method operation ⟨linked, same⟩
  cases same
  exact linked

end

/-- The wrapper leads to every operation of a document that is no bare map of schemas: it has one
property for each path with an operation, which has one for each method, both in document order.
The declarations of the parameters, of the body and of the response to each status are referred to
by their names exactly if the operation has those, and no name or place is that of two
declarations, whatever the operations are called. -/
theorem assemble_links {index : Index} {dialect : Dialect} {assembly : Assembly}
    (h : assemble index dialect false = .ok assembly) :
    (operationPaths index).Nodup ∧ (∀ path, (methodsAt index path).Nodup) ∧
      (∀ path method node, index.get? ⟨["paths", path, method]⟩ = some node →
        (Operation.statuses node).Nodup) ∧
      ∃ declarations members,
        assembly.declarations =
          declarations ++ [⟨wrapperName, ⟨["paths"]⟩, .apiWrapper, .object members, none⟩] ∧
        List.Forall₂ (PathLinked index dialect assembly.declarations) (operationPaths index)
          members := by
  have paths := keysAt_nodup index ⟨["paths"]⟩
  refine ⟨paths.filter _, fun path => (keysAt_nodup index _).filter _, ?statuses, ?members⟩
  case statuses =>
    intro path method node stands
    exact (Index.fieldsUnder_stand "responses" stands rfl).2.filter _
  case members =>
    obtain ⟨found, state, declared, promoted, assembled, -, same⟩ := assemble_consists h
    obtain ⟨keys, linked⟩ := assembled.operations_linked
    refine ⟨declared ++ promoted, (pathsOf (operationsOf found)).map _, same, ?_⟩
    rw [same, pathsOf_grouped paths keys, List.forall₂_map_right_iff]
    exact List.forall₂_same.2 fun path hp => path_linked (List.mem_filter.1 hp).1 keys linked

/-- Two operations with one id, and a schema with the name that the parameters of both would have. -/
def sameNames : Document :=
  .ofJson (.object [
    ("components", .object [("schemas", .object [("PetsParameters", .object [])])]),
    ("paths", .object [("/pets", .object [
      ("parameters", .array [.object [("name", .string "limit"), ("in", .string "query")]]),
      ("get", .object [("operationId", .string "pets"),
        ("responses", .object [("200", .object [])])]),
      ("put", .object [("operationId", .string "pets")])])])])

theorem assemble_links_sameNames :
    ∃ assembly, assemble (indexOf sameNames .openApi3 false) .openApi3 false = .ok assembly ∧
      assembly.declarations.map nameEntry = [
        (⟨["components", "schemas", "PetsParameters"]⟩, "PetsParameters"),
        (⟨["paths", "/pets", "get", "parameters"]⟩, "PetsParameters_PathsPetsGetParameters"),
        (⟨["paths", "/pets", "get", "responses", "200"]⟩, "Pets200Response"),
        (⟨["paths", "/pets", "put", "parameters"]⟩, "PetsParameters_PathsPetsPutParameters"),
        (⟨["paths"]⟩, "paths")] ∧
      ∃ declarations members,
        assembly.declarations =
          declarations ++ [⟨wrapperName, ⟨["paths"]⟩, .apiWrapper, .object members, none⟩] ∧
        List.Forall₂ (PathLinked (indexOf sameNames .openApi3 false) .openApi3 assembly.declarations)
          ["/pets"] members := by
  have names : (assemble (indexOf sameNames .openApi3 false) .openApi3 false).toOption.map
      (·.declarations.map nameEntry) = some [
        (⟨["components", "schemas", "PetsParameters"]⟩, "PetsParameters"),
        (⟨["paths", "/pets", "get", "parameters"]⟩, "PetsParameters_PathsPetsGetParameters"),
        (⟨["paths", "/pets", "get", "responses", "200"]⟩, "Pets200Response"),
        (⟨["paths", "/pets", "put", "parameters"]⟩, "PetsParameters_PathsPetsPutParameters"),
        (⟨["paths"]⟩, "paths")] := by
    decide +kernel
  have paths : operationPaths (indexOf sameNames .openApi3 false) = ["/pets"] := by decide +kernel
  obtain ⟨assembly, he, names⟩ := ok_of_computed names
  obtain ⟨-, -, -, declarations, members, same, linked⟩ := assemble_links he
  rw [paths] at linked
  exact ⟨assembly, he, names, declarations, members, same, linked⟩

end Api

end ApiTypes
