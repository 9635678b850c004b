import ApiTypes.Proofs.Api.WellFormed
import ApiTypes.Proofs.Meaning.Null
import ApiTypes.Proofs.Typing.Load
import ApiTypes.Proofs.Typing.Recorded
import ApiTypes.Proofs.TypeExpr.Size
import Mathlib.Combinatorics.Pigeonhole
import Mathlib.Order.Interval.Finset.Nat

/-!
# How high arrays tower

A short type is no more than arrays in one another around something without parts, and it may be
repeated by references, so it matters how many arrays there are. Each comes from some schema, but a
schema may put its array around a type that is repeated, over and over.

* `gives_of_short`: a short type of a schema comes from a single schema inside it or from its
  reference, and it is the same one for all short types (`sourceOf`);
* `two_sizes`: so the short types of one schema have two sizes at most;
* `plainSize_of_short`: towers of each height below the highest are typed at some schema that is no
  reference;
* `size_le_of_short`: so none is higher than twice the number of these.
-/

namespace ApiTypes

namespace TypeExpr

/-! ## Short unions and intersections -/

theorem insertNew_extends (types : List TypeExpr) (type : TypeExpr) :
    types <+: insertNew types type := by
  unfold insertNew
  split
  · exact List.prefix_rfl
  · exact List.prefix_append _ _

theorem foldl_insertNew_extends (types start : List TypeExpr) :
    start <+: types.foldl insertNew start := by
  induction types generalizing start with
  | nil => exact List.prefix_rfl
  | cons type rest ih => exact (insertNew_extends start type).trans (ih _)

theorem ofAlternatives_of_isSimple {first : TypeExpr} {types : List TypeExpr}
    (h : [first] <+: types) (short : (ofAlternatives types).isSimple = true) :
    types = [first] := by
  obtain ⟨_ | ⟨second, rest⟩, rfl⟩ := h
  · rfl
  · simp [ofAlternatives, isSimple] at short

/-- A short union is its first type. -/
theorem unionOf_of_isSimple {first : TypeExpr} {rest : List TypeExpr} (formed : WellFormed first)
    (short : (unionOf (first :: rest)).isSimple = true) : unionOf (first :: rest) = first := by
  have beginning : dedupe ((first :: rest).flatMap alternatives) =
      (rest.flatMap alternatives).foldl insertNew (dedupe first.alternatives) := by
    rw [dedupe, List.flatMap_cons, List.foldl_append, dedupe]
  have extended := foldl_insertNew_extends (rest.flatMap alternatives) (dedupe first.alternatives)
  rw [← beginning] at extended
  by_cases flat : first.isUnion = false
  · rw [alternatives_of_not_union flat] at extended
    have alone := ofAlternatives_of_isSimple extended short
    rw [unionOf, alone]
    rfl
  · cases first with
    | union types =>
      -- The types of a union are different, so there are two of them or more after all.
      obtain ⟨several, distinct, -⟩ := formed.formed
      obtain ⟨a, b, more, rfl⟩ : ∃ a b more, types = a :: b :: more := by
        rcases types with _ | ⟨a, _ | ⟨b, more⟩⟩
        · cases several
        · exact absurd several (by simp)
        · exact ⟨a, b, more, rfl⟩
      have differ := (List.pairwise_cons.1 distinct).1 b List.mem_cons_self
      have two : [a, b] <+: dedupe (alternatives (.union (a :: b :: more))) := by
        have start : insertNew (insertNew [] a) b = [a, b] := by
          simp [insertNew, differ.1]
        rw [alternatives, dedupe, List.foldl_cons, List.foldl_cons, start]
        exact foldl_insertNew_extends _ _
      have both := two.trans extended
      have alone := ofAlternatives_of_isSimple ((List.prefix_append [a] [b]).trans both) short
      rw [alone] at both
      exact absurd both.length_le (by simp)
    | _ => exact absurd rfl flat

/-- A short intersection is its first type. -/
theorem intersectionOf_of_isSimple {first : TypeExpr} {rest : List TypeExpr}
    (formed : WellFormed first) (short : (intersectionOf (first :: rest)).isSimple = true) :
    intersectionOf (first :: rest) = first := by
  unfold intersectionOf at short ⊢
  rw [List.flatMap_cons] at short ⊢
  cases first with
  | intersection types =>
    have several : 2 ≤ types.length := formed.formed
    match types, several with
    | a :: b :: more, _ => simp [conjuncts, ofConjuncts, isSimple] at short
  | _ =>
    simp only [conjuncts, List.singleton_append] at short ⊢
    generalize rest.flatMap _ = others at short ⊢
    cases others with
    | nil => rfl
    | cons _ _ => simp [ofConjuncts, isSimple] at short

end TypeExpr

namespace Typing

open Schema TypeExpr

/-! ## Where short types come from -/

/-- Where the short types of a schema come from, all of them. -/
inductive Source (node : Json)
  /-- None has more parts than one. -/
  | fixed
  /-- They are those of another schema. -/
  | sameAs (inner : Inner node) (place : Pointer)
  /-- They are arrays of those of another schema. -/
  | arrayOf (inner : Inner node) (place : Pointer)
  /-- They are those for a reference. -/
  | following (reference : String)

section
variable {node : Json}

def firstSource (make : Inner node → Pointer → Source node) (place : Pointer) :
    List (Inner node) → Source node
  | [] => .fixed
  | inner :: _ => make inner (place.element 0)

def coreSource (place : Pointer) : Core (Inner node) → Source node
  | .scalar _ | .object _ | .array .absent => .fixed
  | .array (.single inner) => .arrayOf inner (place.child "items")
  | .array (.tuple inners) => firstSource .arrayOf (place.child "items") inners

def baseSource (place : Pointer) : Base (Inner node) → Source node
  | .one core => coreSource place core
  | .several [] => .fixed
  | .several (core :: _) => coreSource place core

/-- Of what a schema is put together from, what is put first. -/
def compositeSource (place : Pointer) (composition : Composition (Inner node))
    (base : Option (Base (Inner node))) : Source node :=
  match base, composition.allOf, composition.oneOf, composition.anyOf with
  | some base, _, _, _ => baseSource place base
  | none, some inners, _, _ => firstSource .sameAs (place.child "allOf") inners
  | none, none, some inners, _ => firstSource .sameAs (place.child "oneOf") inners
  | none, none, none, some inners => firstSource .sameAs (place.child "anyOf") inners
  | none, none, none, none => .fixed

def shapeSource (place : Pointer) : Shape (Inner node) → Source node
  | .reference reference => .following reference
  | .composite composition base => compositeSource place composition base
  | .structural base => baseSource place base
  | .any | .nothing | .enumeration _ | .enumerationWithComposition | .constant _ | .unsupported _ =>
    .fixed

/-- Where the short types of a schema come from. Those that admit null besides are null. -/
def sourceOf (node : Json) (place : Pointer) : Source node :=
  if isNullable node then .fixed else shapeSource place (shape node)

/-- A source gives a type. -/
def Source.Gives (source : Source node) (index : Index) (state : State) (typed : InnerTyped node)
    (type : TypeExpr) : Prop :=
  match source with
  | .fixed => type.size ≤ 2
  | .sameAs inner place => index.get? place = some inner.node ∧ typed inner place type
  | .arrayOf inner place =>
    index.get? place = some inner.node ∧ ∃ item, type = .array item ∧ typed inner place item
  | .following reference => ReferenceTyped state index reference type

section
variable {index : Index} {state : State} {typed : InnerTyped node} {place : Pointer}
  (formed : ∀ inner p type, index.get? p = some inner.node → typed inner p type → WellFormed type)
include formed

theorem first_of_short (make : List TypeExpr → TypeExpr) (empty : (make []).size = 1)
    {inners : List (Inner node)}
    (short : ∀ first rest, inners ≠ [] → WellFormed first →
      (make (first :: rest)).isSimple = true → make (first :: rest) = first)
    {types : List TypeExpr} (stands : ListStands index place inners)
    (h : ListTyped typed place 0 inners types) (simple : (make types).isSimple = true) :
    (inners = [] ∧ (make types).size = 1) ∨ ∃ inner rest, inners = inner :: rest ∧
      index.get? (place.element 0) = some inner.node ∧
      typed inner (place.element 0) (make types) := by
  cases h with
  | nil => exact .inl ⟨rfl, empty⟩
  | @cons _ inner type inners types first rest =>
    have here := stands 0 inner rfl
    rw [short type types (List.cons_ne_nil _ _) (formed inner _ type here first) simple]
    exact .inr ⟨inner, inners, rfl, here, first⟩

omit formed in
theorem size_of_literal {value : Json} {type : TypeExpr} (h : LiteralTyped state place value type) :
    type.size = 1 := by
  unfold LiteralTyped at h
  split at h
  case h_6 | h_7 =>
    rw [h.1]
    rfl
  all_goals
    rw [h]
    rfl

theorem coreSource_gives {core : Core (Inner node)} {type : TypeExpr}
    (stands : CoreStands index place core) (h : CoreTyped typed place core type)
    (short : type.isSimple = true) : (coreSource place core).Gives index state typed type := by
  cases core with
  | scalar kind =>
    have scalar : type = scalarType kind := h
    rw [scalar]
    cases kind <;> exact Nat.le_succ 1
  | array items =>
    cases items with
    | absent =>
      have any : type = .array (.unknown none) := h
      rw [any]
      exact Nat.le_refl 2
    | single inner =>
      obtain ⟨item, rfl, typed⟩ := h
      exact ⟨stands, item, rfl, typed⟩
    | tuple inners =>
      obtain ⟨types, list, rfl⟩ := h
      rcases first_of_short formed unionOf rfl (fun _ _ _ => unionOf_of_isSimple) stands list short with
        ⟨rfl, one⟩ | ⟨inner, rest, rfl, here, first⟩
      · have two : (TypeExpr.array (unionOf types)).size = 2 := by rw [size, one]
        exact two.le
      · exact ⟨here, _, rfl, first⟩
  | object shape =>
    obtain ⟨types, additional, -, -, rfl⟩ := h
    cases short

theorem baseSource_gives {base : Base (Inner node)} {type : TypeExpr}
    (stands : BaseStands index place base) (h : BaseTyped typed place base type)
    (short : type.isSimple = true) : (baseSource place base).Gives index state typed type := by
  cases base with
  | one core => exact coreSource_gives formed stands h short
  | several cores =>
    obtain ⟨types, each, rfl⟩ := h
    cases each with
    | nil => exact Nat.le_succ 1
    | @cons core first cores types typedFirst rest =>
      have here : CoreStands index place core := stands core List.mem_cons_self
      have whole : WellFormed first :=
        CoreTyped.preserved (Api.wellFormed_preserved index state) formed typedFirst here
      have alone := unionOf_of_isSimple whole short
      rw [alone] at short ⊢
      exact coreSource_gives formed here typedFirst short

omit formed in
theorem taggedType_of_isSimple {property : String} {mapping : Option (List (String × Json))}
    {schema : Json} {type : TypeExpr} (short : (taggedType property mapping schema type).isSimple = true) :
    taggedType property mapping schema type = type := by
  unfold taggedType at short ⊢
  split at short
  · cases short
  · rfl

omit formed in
theorem alternativesOf_of_isSimple (kept : Preserved index state WellFormed)
    {inners : List (Inner node)} {first : TypeExpr} {rest : List TypeExpr} (some : inners ≠ [])
    (whole : WellFormed first)
    (short : (unionOf (alternativesOf node inners (first :: rest))).isSimple = true) :
    unionOf (alternativesOf node inners (first :: rest)) = first := by
  unfold alternativesOf at short ⊢
  split at short
  · exact unionOf_of_isSimple whole short
  · rename_i property mapping _
    obtain ⟨inner, inners, rfl⟩ := List.exists_cons_of_ne_nil some
    rw [List.zipWith_cons_cons] at short ⊢
    have tagged : WellFormed (taggedType property mapping inner.node first) := by
      unfold taggedType
      split
      · exact kept.tagged _ _ _ whole
      · exact whole
    have alone := unionOf_of_isSimple tagged short
    rw [alone] at short ⊢
    exact taggedType_of_isSimple short

/-- Where the alternatives under a keyword are put first. -/
theorem choiceSource_gives (kept : Preserved index state WellFormed) {keyword : String}
    {inners : List (Inner node)} {types others : List TypeExpr}
    (stands : ListStands index (place.child keyword) inners)
    (h : ChoiceUnderTyped typed place keyword (some inners) types)
    (short : (intersectionOf (types ++ others)).isSimple = true) :
    (firstSource .sameAs (place.child keyword) inners).Gives index state typed
      (intersectionOf (types ++ others)) := by
  have whole := h.preserved kept formed fun _ he => Option.some.inj he ▸ stands
  obtain ⟨ts, list, rfl⟩ := h
  have alone : intersectionOf ([unionOf (alternativesOf node inners ts)] ++ others) = _ :=
    intersectionOf_of_isSimple (whole _ (List.mem_singleton_self _)) short
  rw [alone] at short ⊢
  have nothing : alternativesOf node inners [] = [] := by
    unfold alternativesOf
    split <;> simp
  rcases first_of_short formed (fun types => unionOf (alternativesOf node inners types))
    (by rw [nothing]; rfl) (fun _ _ => alternativesOf_of_isSimple kept) stands list short with
    ⟨rfl, one⟩ | ⟨inner, rest, rfl, here, first⟩
  · exact one.le.trans (Nat.le_succ 1)
  · exact ⟨here, first⟩

/-- Where the types that all apply are put first. -/
theorem allSource_gives (kept : Preserved index state WellFormed) {inners : List (Inner node)}
    {types others : List TypeExpr} (stands : ListStands index (place.child "allOf") inners)
    (h : AllUnderTyped typed place (some inners) types)
    (short : (intersectionOf (types ++ others)).isSimple = true) :
    (firstSource .sameAs (place.child "allOf") inners).Gives index state typed
      (intersectionOf (types ++ others)) := by
  have whole := h.preserved kept formed fun _ he => Option.some.inj he ▸ stands
  obtain ⟨ts, list, rfl⟩ := h
  have alone : intersectionOf ([intersectionOf ts] ++ others) = _ :=
    intersectionOf_of_isSimple (whole _ (List.mem_singleton_self _)) short
  rw [alone] at short ⊢
  rcases first_of_short formed intersectionOf rfl
    (fun _ _ _ => intersectionOf_of_isSimple) stands list short with
    ⟨rfl, one⟩ | ⟨inner, rest, rfl, here, first⟩
  · exact one.le.trans (Nat.le_succ 1)
  · exact ⟨here, first⟩

/-- Of the parts there are, a short type is the first. -/
theorem compositeSource_gives {composition : Composition (Inner node)}
    {base : Option (Base (Inner node))} {type : TypeExpr} {choiceHasNull : Bool}
    (stands : CompositionStands index place composition)
    (baseStands : ∀ b, base = some b → BaseStands index place b)
    (h : CompositeTyped typed place state composition base type choiceHasNull)
    (short : type.isSimple = true) :
    (compositeSource place composition base).Gives index state typed type := by
  have kept := Api.wellFormed_preserved index state
  obtain ⟨ofBase, ofAll, ofOne, ofAny, ofNot, hb, ha, ho, hy, hn, rfl, -⟩ := h
  obtain ⟨allOf, oneOf, anyOf, not⟩ := composition
  cases base with
  | some base =>
    have whole := hb.preserved kept formed baseStands
    obtain ⟨type, typedBase, rfl⟩ := hb
    simp only [List.cons_append, List.nil_append] at short ⊢
    have alone := intersectionOf_of_isSimple (whole _ (List.mem_singleton_self _)) short
    rw [alone] at short ⊢
    exact baseSource_gives formed (baseStands base rfl) typedBase short
  | none =>
    cases (show ofBase = [] from hb)
    rw [List.nil_append] at short ⊢
    cases allOf with
    | some inners =>
      simp only [List.append_assoc] at short ⊢
      exact allSource_gives formed kept (stands.allOf inners rfl) ha short
    | none =>
      cases (show ofAll = [] from ha)
      rw [List.nil_append] at short ⊢
      cases oneOf with
      | some inners =>
        rw [List.append_assoc] at short ⊢
        exact choiceSource_gives formed kept (stands.oneOf inners rfl) ho short
      | none =>
        cases (show ofOne = [] from ho)
        rw [List.nil_append] at short ⊢
        cases anyOf with
        | some inners => exact choiceSource_gives formed kept (stands.anyOf inners rfl) hy short
        | none =>
          cases (show ofAny = [] from hy)
          rw [List.nil_append] at short ⊢
          cases not with
          | none =>
            cases (show ofNot = [] from hn)
            exact Nat.le_succ 1
          | some schema =>
            obtain ⟨type, ⟨rfl, -⟩, rfl⟩ := hn
            exact Nat.le_succ 1

theorem shapeSource_gives {shape : Shape (Inner node)} {type : TypeExpr} {choiceHasNull : Bool}
    (stands : ShapeStands index place shape)
    (h : ShapeTyped typed place index state shape type choiceHasNull) (short : type.isSimple = true) :
    (shapeSource place shape).Gives index state typed type := by
  have one {t : TypeExpr} (h : t.size = 1) : t.size ≤ 2 := h.le.trans (Nat.le_succ 1)
  cases shape with
  | any => exact one (h.1 ▸ rfl)
  | nothing => exact one (h.1 ▸ rfl)
  | reference reference => exact h.1
  | enumeration values =>
    obtain ⟨⟨types, each, rfl⟩, -⟩ := h
    cases each with
    | nil => exact one rfl
    | @cons value first values types literal rest =>
      have alone := unionOf_of_isSimple (Api.wellFormed_ofLiteral literal) short
      rw [alone]
      exact one (size_of_literal literal)
  | enumerationWithComposition => exact one (h.1.1 ▸ rfl)
  | constant value => exact one (size_of_literal h.1)
  | composite composition base => exact compositeSource_gives formed stands.1 stands.2 h short
  | structural base => exact baseSource_gives formed stands h.1 short
  | unsupported reason => exact one (h.1.1 ▸ rfl)

end

end

/-! ## How many sizes there are -/

section
variable {index : Index} {state : State} {node : Json} {place : Pointer}

/-- A short type that admits null besides is null, or not known. -/
theorem size_of_nullable {bare type : TypeExpr} {choiceHasNull : Bool} (whole : WellFormed bare)
    (nullable : isNullable node = true) (h : NullTyped state node place bare choiceHasNull type)
    (short : type.isSimple = true) : type.size = 1 := by
  unfold NullTyped at h
  rw [if_pos nullable] at h
  split at h
  · rw [h.1]
    rfl
  · have hasNull : .null ∈ alternatives (unionOf [bare, .null]) :=
      Meaning.null_mem_unionOf (List.mem_pair.2 (.inr rfl)) (Meaning.null_mem_of_eq rfl)
    rw [h] at short ⊢
    have alone := unionOf_of_isSimple whole short
    rw [alone] at short hasNull ⊢
    cases bare with
    | union types => cases short
    | _ =>
      rw [← List.mem_singleton.1 hasNull]
      rfl

section
variable (recorded : ∀ entry ∈ state.expanded, WellFormed entry.2)
include recorded

theorem gives_of_short (here : index.get? place = some node) {source : Source node}
    (found : sourceOf node place = source) {type : TypeExpr}
    (h : NodeTyped index state node place type) (short : type.isSimple = true) :
    source.Gives index state (fun inner => NodeTyped index state inner.node) type := by
  subst found
  have kept := Api.wellFormed_preserved index state
  have formed (inner : Inner node) (p : Pointer) (t : TypeExpr) (hi : index.get? p = some inner.node)
      (ht : NodeTyped index state inner.node p t) : WellFormed t :=
    NodeTyped.preserved kept recorded inner.node p t hi ht
  obtain ⟨bare, choiceHasNull, made, null⟩ := nodeTyped_iff.1 h
  unfold sourceOf
  split
  · rename_i nullable
    have whole : WellFormed bare :=
      ShapeTyped.preserved kept formed recorded made here rfl
    exact (size_of_nullable whole nullable null short).le.trans (Nat.le_succ 1)
  · rename_i nullable
    unfold NullTyped at null
    rw [if_neg nullable] at null
    subst null
    exact shapeSource_gives formed (shape_stands here) made short

/-- The short types of a schema have one of two sizes, as its reference leads to a name or to what
is recorded, once. -/
theorem two_sizes (once : (state.expanded.map (·.1)).Nodup) (node : Json) (place : Pointer)
    (here : index.get? place = some node) : ∃ a b, ∀ type, NodeTyped index state node place type →
      type.isSimple = true → type.size = a ∨ type.size = b := by
  by_cases any : ∃ type, NodeTyped index state node place type ∧ type.isSimple = true
  · obtain ⟨type, h, short⟩ := any
    cases source : sourceOf node place with
    | fixed =>
      refine ⟨1, 2, fun type h short => ?_⟩
      have small : type.size ≤ 2 := gives_of_short recorded here source h short
      have := type.size_pos
      omega
    | sameAs inner p =>
      obtain ⟨a, b, sizes⟩ := two_sizes once inner.node p
        (gives_of_short recorded here source h short).1
      refine ⟨a, b, fun type h short => ?_⟩
      exact sizes type (gives_of_short recorded here source h short).2 short
    | arrayOf inner p =>
      obtain ⟨a, b, sizes⟩ := two_sizes once inner.node p
        (gives_of_short recorded here source h short).1
      refine ⟨1 + a, 1 + b, fun type h short => ?_⟩
      obtain ⟨-, item, rfl, typed⟩ := gives_of_short recorded here source h short
      simpa [size] using sizes item typed short
    | following reference =>
      obtain ⟨target, leads, -⟩ := gives_of_short recorded here source h short
      refine ⟨1, ((state.expanded.lookup target.pointer).map size).getD 1, fun type h short => ?_⟩
      obtain ⟨target', leads', typed⟩ := gives_of_short recorded here source h short
      rw [leads] at leads'
      cases leads'
      rcases typed with ⟨name, -, rfl⟩ | typed
      · exact .inl rfl
      · right
        rw [lookup_of_mem once typed]
        rfl
  · exact ⟨0, 0, fun type h short => absurd ⟨type, h, short⟩ any⟩
termination_by sizeOf node
decreasing_by all_goals exact inner.smaller

/-- A short type with parts is no more than null or not known where a schema is nullable, so unless
it comes from a reference its schema says it by itself. -/
theorem isPlain_of_short (here : index.get? place = some node) {type : TypeExpr}
    (h : NodeTyped index state node place type) (short : type.isSimple = true)
    (several : 2 ≤ type.size) (direct : ∀ reference, sourceOf node place ≠ .following reference) :
    node.isPlain = true := by
  have kept := Api.wellFormed_preserved index state
  have formed (inner : Inner node) (p : Pointer) (t : TypeExpr) (hi : index.get? p = some inner.node)
      (ht : NodeTyped index state inner.node p t) : WellFormed t :=
    NodeTyped.preserved kept recorded inner.node p t hi ht
  obtain ⟨bare, choiceHasNull, made, null⟩ := nodeTyped_iff.1 h
  have whole : WellFormed bare :=
    ShapeTyped.preserved kept formed recorded made here rfl
  by_cases nullable : isNullable node = true
  · have := size_of_nullable whole nullable null short
    omega
  · unfold NullTyped at null
    rw [if_neg nullable] at null
    subst null
    have small (h : type.size = 1) : node.isPlain = true := by omega
    cases node with
    | object fields =>
      cases refers : reference? (.object fields) with
      | none => simp [Json.isPlain, Json.isObject, Json.isReference, refers]
      | some reference =>
        refine absurd ?_ (direct reference)
        rw [sourceOf, if_neg nullable, Meaning.shape_of_reference refers, shapeSource]
    | bool value => cases value <;> exact small (made.1 ▸ rfl)
    | null | number | string | array => exact small (made.1.1 ▸ rfl)

end

/-- A short type of some size is typed at a schema that says it by itself. -/
def PlainSize (index : Index) (state : State) (size : Nat) : Prop :=
  ∃ place node type, index.get? place = some node ∧ node.isPlain = true ∧
    NodeTyped index state node place type ∧ type.isSimple = true ∧ type.size = size

/-- Towers of each height below are typed on the way to a tower: where it comes from a schema inside
or from what was recorded before, the tower is there already, and where an array is put around
another, that one is there. -/
theorem plainSize_of_short (ordered : state.Ordered index)
    (recorded : ∀ entry ∈ state.expanded, WellFormed entry.2) (count : Nat) (node : Json)
    (place : Pointer) (here : index.get? place = some node) (type : TypeExpr)
    (h : NodeTyped index (state.upTo count) node place type) (short : type.isSimple = true)
    {height : Nat} (several : 2 ≤ height) (le : height ≤ type.size) : PlainSize index state height := by
  have earlier : ∀ entry ∈ (state.upTo count).expanded, WellFormed entry.2 :=
    fun entry hm => recorded entry (List.mem_of_mem_take hm)
  have grows : (state.upTo count).Grows state :=
    { State.Grows.refl state with expanded := List.take_prefix _ _ }
  have itself (all : height = type.size)
      (direct : ∀ reference, sourceOf node place ≠ .following reference) :
      PlainSize index state height :=
    ⟨place, node, type, here, isPlain_of_short earlier here h short (all ▸ several) direct,
      NodeTyped.mono grows _ _ _ h, short, all.symm⟩
  cases source : sourceOf node place with
  | fixed =>
    have small : type.size ≤ 2 := gives_of_short earlier here source h short
    exact itself (by omega) (by simp [source])
  | sameAs inner p =>
    obtain ⟨stands, typed⟩ := gives_of_short earlier here source h short
    exact plainSize_of_short ordered recorded count inner.node p stands type typed short several le
  | arrayOf inner p =>
    obtain ⟨stands, item, rfl, typed⟩ := gives_of_short earlier here source h short
    rw [size] at le
    by_cases all : height = 1 + item.size
    · exact itself all (by simp [source])
    · exact plainSize_of_short ordered recorded count inner.node p stands item typed short several
        (by omega)
  | following reference =>
    obtain ⟨target, -, ⟨name, -, rfl⟩ | typed⟩ := gives_of_short earlier here source h short
    · rw [size] at le
      omega
    · obtain ⟨fewer, before, node, stands, made⟩ := ordered.of_mem typed
      exact plainSize_of_short ordered recorded fewer node target.pointer stands type made short
        several le
termination_by (count, sizeOf node)
decreasing_by
  · exact Prod.Lex.right _ inner.smaller
  · exact Prod.Lex.right _ inner.smaller
  · exact Prod.Lex.left _ _ before

/-- No tower is higher than what all schemas that are no references can be typed as, each with two
sizes. -/
theorem size_le_of_short (ordered : state.Ordered index)
    (recorded : ∀ entry ∈ state.expanded, WellFormed entry.2)
    (once : (state.expanded.map (·.1)).Nodup) (here : index.get? place = some node) {type : TypeExpr}
    (h : NodeTyped index state node place type) (short : type.isSimple = true) :
    type.size ≤ 2 * index.plainPlaces + 1 := by
  let plain := ((index.locations.filter (·.2.isPlain)).map (·.1)).toFinset
  have each (height : Nat) (hm : height ∈ Finset.Icc 2 type.size) :
      ∃ p ∈ plain, ∃ node type, index.get? p = some node ∧ NodeTyped index state node p type ∧
        type.isSimple = true ∧ type.size = height := by
    obtain ⟨several, le⟩ := Finset.mem_Icc.1 hm
    obtain ⟨p, node, t, stands, isPlain, typed, simple, same⟩ := plainSize_of_short ordered recorded
      state.expanded.length node place here type (by rwa [State.upTo_length]) short several le
    refine ⟨p, List.mem_toFinset.2 (List.mem_map.2 ⟨(p, node), ?_, rfl⟩), node, t, stands, typed,
      simple, same⟩
    exact List.mem_filter.2 ⟨Index.mem_locations stands, isPlain⟩
  have : Nonempty Pointer := ⟨place⟩
  choose! placeOf inPlain typedThere using each
  have few (p : Pointer) (hp : p ∈ plain) :
      ((Finset.Icc 2 type.size).filter (placeOf · = p)).card ≤ 2 := by
    obtain ⟨⟨_, node⟩, hm, rfl⟩ := List.mem_map.1 (List.mem_toFinset.1 hp)
    have stands := Index.mem_locations_iff.1 (List.mem_of_mem_filter hm)
    obtain ⟨a, b, sizes⟩ := two_sizes recorded once node _ stands
    refine (Finset.card_le_card fun height hm => ?_).trans (Finset.card_le_two (a := a) (b := b))
    obtain ⟨hm, there⟩ := Finset.mem_filter.1 hm
    obtain ⟨node', t, stands', typed, simple, same⟩ := typedThere height hm
    rw [there] at stands' typed
    cases stands.symm.trans stands'
    have := sizes t typed simple
    simp [← same, this]
  have heights := Finset.card_le_mul_card_image_of_maps_to inPlain 2 few
  have places : plain.card ≤ index.plainPlaces := by
    refine (List.toFinset_card_le _).trans ?_
    rw [List.length_map, ← List.countP_eq_length_filter]
    rfl
  rw [Nat.card_Icc] at heights
  omega

end

end Typing

end ApiTypes
