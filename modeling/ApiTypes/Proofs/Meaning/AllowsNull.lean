import ApiTypes.Proofs.Api.WellFormed
import ApiTypes.Proofs.Meaning.Null
import ApiTypes.Proofs.Typing.Exposed

/-!
# Where null among alternatives comes from

A type has null among its alternatives only for reasons that stand in the document: its schema names
null or is nullable, or is a reference to such a schema, or is nothing but one such schema or a
choice with one (`AllowsNull`).

* `allowsNull_of_includesNull`: of every type that typing makes, by induction on how many types were
  recorded and on the schema;
* `nullAllowed_of_choice`: so a choice counts as one that allows null only when one of its
  alternatives does (`NullAllowed`).
-/

namespace ApiTypes.Meaning

open Typing Schema TypeExpr

/-- The alternatives' types stand in the choice as they are. An alternative that is a reference is
told apart by a value of the discriminating property instead, where its schema names one. -/
def Untagged (node alternative : Json) : Prop :=
  ∀ property mapping, discriminator? node = some (property, mapping) →
    (reference? alternative).bind (tagOf? · mapping) = none

/-- Null is allowed, for a reason that shows in the type. -/
inductive AllowsNull (index : Index) : Json → Prop
  | named {node : Json} (named : NamesNull (shape node)) : AllowsNull index node
  | nullable {node : Json} (nullable : isNullable node = true) : AllowsNull index node
  | reference {node : Json} {reference : String} {target : index.Target}
      (refers : shape node = .reference reference)
      (leads : (Pointer.ofReference? reference).bind index.locate? = some target)
      (allows : AllowsNull index target.node) : AllowsNull index node
  | all {node : Json} {inner : Inner node}
      (composite : shape node = .composite ⟨some [inner], none, none, none⟩ none)
      (allows : AllowsNull index inner.node) : AllowsNull index node
  | choice {node : Json} {composition : Composition (Inner node)} {inners : List (Inner node)}
      {inner : Inner node} (composite : shape node = .composite composition none)
      (choice : IsChoice composition inners) (member : inner ∈ inners)
      (untagged : Untagged node inner.node) (allows : AllowsNull index inner.node) :
      AllowsNull index node

/-- One of the alternatives of a choice allows null. -/
def NullAllowed (index : Index) (node : Json) : Prop :=
  ∃ composition base inners inner, shape node = .composite composition base ∧
    (composition.oneOf = some inners ∨ composition.anyOf = some inners) ∧ inner ∈ inners ∧
    Untagged node inner.node ∧ AllowsNull index inner.node

/-! ## Types with null -/

theorem anyIncludesNull_iff {types : List TypeExpr} :
    anyIncludesNull types = true ↔ ∃ type ∈ types, type.includesNull = true := by
  induction types with
  | nil => simp [anyIncludesNull]
  | cons type rest ih => simp [anyIncludesNull, ih]

theorem includesNull_of_alternative {type whole : TypeExpr} (hm : type ∈ alternatives whole)
    (null : type.includesNull = true) : whole.includesNull = true := by
  cases whole with
  | union types => exact anyIncludesNull_iff.2 ⟨type, hm, null⟩
  | _ => exact List.mem_singleton.1 hm ▸ null

theorem includesNull_of_unionOf {types : List TypeExpr}
    (null : (unionOf types).includesNull = true) : ∃ type ∈ types, type.includesNull = true := by
  have found : ∃ type ∈ dedupe (types.flatMap alternatives), type.includesNull = true := by
    unfold unionOf ofAlternatives at null
    split at null
    · cases null
    · rename_i type single
      exact ⟨type, single ▸ List.mem_singleton_self type, null⟩
    · exact anyIncludesNull_iff.1 null
  obtain ⟨type, hm, null⟩ := found
  obtain ⟨whole, hw, ha⟩ := List.mem_flatMap.1 (mem_of_mem_dedupe hm)
  exact ⟨whole, hw, includesNull_of_alternative ha null⟩

/-- An intersection of well-formed types has null among its alternatives only when it is of one
type, that has. -/
theorem includesNull_of_intersectionOf {types : List TypeExpr}
    (formed : ∀ type ∈ types, WellFormed type)
    (h : (intersectionOf types).includesNull = true) :
    ∃ type, types = [type] ∧ type.includesNull = true := by
  have single : ∃ type, types.flatMap conjuncts = [type] ∧ type.includesNull = true := by
    unfold intersectionOf ofConjuncts at h
    split at h
    · cases h
    · exact ⟨_, ‹_›, h⟩
    · cases h
  obtain ⟨type, single, null⟩ := single
  have parts (whole : TypeExpr) (hm : whole ∈ types) : 1 ≤ whole.conjuncts.length := by
    cases whole with
    | intersection inner =>
      have several : 2 ≤ inner.length := (formed _ hm).formed
      exact Nat.le_of_succ_le several
    | _ => exact Nat.le_refl 1
  cases types with
  | nil => cases single
  | cons whole rest =>
    have first := parts whole List.mem_cons_self
    have total := congrArg List.length single
    rw [List.flatMap_cons, List.length_append, List.length_singleton] at total
    have alone : rest = [] := by
      cases rest with
      | nil => rfl
      | cons other _ =>
        have second := parts other (List.mem_cons_of_mem _ List.mem_cons_self)
        rw [List.flatMap_cons, List.length_append] at total
        omega
    subst alone
    rw [List.flatMap_cons, List.flatMap_nil, List.append_nil] at single
    have same : whole = type := by
      cases whole with
      | intersection inner =>
        have several : 2 ≤ inner.length := (formed _ List.mem_cons_self).formed
        have one : inner.length = 1 := congrArg List.length single
        omega
      | _ => exact List.singleton_inj.1 single
    exact ⟨whole, rfl, same ▸ null⟩

/-! ## Shapes with null -/

section
variable {index : Index} {state : State} {node : Json} {typed : InnerTyped node} {place : Pointer}

theorem null_of_literal {value : Json} {type : TypeExpr} (h : LiteralTyped state place value type)
    (null : type.includesNull = true) : value = .null := by
  unfold LiteralTyped at h
  split at h
  · rfl
  case h_3 =>
    subst h
    split at null <;> cases null
  case h_6 | h_7 =>
    rw [h.1] at null
    cases null
  all_goals
    rw [h] at null
    cases null

theorem null_of_core {core : Core (Inner node)} {type : TypeExpr} (h : CoreTyped typed place core type)
    (null : type.includesNull = true) : core = .scalar .null := by
  cases core with
  | scalar kind =>
    have scalar : type = scalarType kind := h
    subst scalar
    cases kind <;> first | rfl | cases null
  | array items =>
    exfalso
    cases items with
    | absent =>
      have array : type = .array (.unknown none) := h
      subst array
      cases null
    | single inner =>
      obtain ⟨item, rfl, -⟩ := h
      cases null
    | tuple inners =>
      obtain ⟨types, -, rfl⟩ := h
      cases null
  | object shape =>
    obtain ⟨types, additional, -, -, rfl⟩ := h
    cases null

theorem null_of_base {base : Base (Inner node)} {type : TypeExpr} (h : BaseTyped typed place base type)
    (null : type.includesNull = true) : NamesNull (.structural base) := by
  cases base with
  | one core => exact null_of_core h null
  | several cores =>
    obtain ⟨types, made, rfl⟩ := h
    obtain ⟨type, hm, null⟩ := includesNull_of_unionOf null
    obtain ⟨core, hc, typed⟩ := exists_left_of_forall₂ made hm
    have scalar := null_of_core typed null
    exact (scalar ▸ hc : Core.scalar .null ∈ cores)

theorem untagged_of_includesNull {property : String} {mapping : Option (List (String × Json))}
    {schema : Json} {type : TypeExpr}
    (null : (taggedType property mapping schema type).includesNull = true) :
    (reference? schema).bind (tagOf? · mapping) = none ∧ type.includesNull = true := by
  unfold taggedType at null
  split at null
  · cases null
  · exact ⟨‹_›, null⟩

theorem BaseUnderTyped.absent {base : Option (Base (Inner node))}
    (h : BaseUnderTyped typed place base []) : base = none := by
  cases base with
  | none => rfl
  | some base =>
    obtain ⟨type, -, one⟩ := h
    cases one

theorem AllUnderTyped.absent {inners : Option (List (Inner node))}
    (h : AllUnderTyped typed place inners []) : inners = none := by
  cases inners with
  | none => rfl
  | some inners =>
    obtain ⟨types, -, one⟩ := h
    cases one

theorem ChoiceUnderTyped.absent {keyword : String} {inners : Option (List (Inner node))}
    (h : ChoiceUnderTyped typed place keyword inners []) : inners = none := by
  cases inners with
  | none => rfl
  | some inners =>
    obtain ⟨types, -, one⟩ := h
    cases one

theorem NotUnderTyped.absent {schema : Option Json} (h : NotUnderTyped state place schema []) :
    schema = none := by
  cases schema with
  | none => rfl
  | some schema =>
    obtain ⟨type, -, one⟩ := h
    cases one

variable (allows : ∀ (inner : Inner node) p type, index.get? p = some inner.node →
  typed inner p type → type.includesNull = true → AllowsNull index inner.node)
include allows

/-- An alternative with null stands in the choice untagged. -/
theorem choice_allows {keyword : String} {listed : Option (List (Inner node))}
    {types : List TypeExpr} {whole : TypeExpr}
    (stands : ∀ inners, listed = some inners → ListStands index (place.child keyword) inners)
    (h : ChoiceUnderTyped typed place keyword listed types) (hm : whole ∈ types)
    (has : whole.includesNull = true) :
    ∃ inners, listed = some inners ∧ ∃ inner ∈ inners, Untagged node inner.node ∧
      AllowsNull index inner.node := by
  cases listed with
  | none =>
    rw [show types = [] from h] at hm
    cases hm
  | some inners =>
    refine ⟨inners, rfl, ?_⟩
    obtain ⟨made, list, rfl⟩ := h
    rw [List.mem_singleton.1 hm] at has
    obtain ⟨alternative, hm, null⟩ := includesNull_of_unionOf has
    have placed := list.placed_of_stands (stands inners rfl)
    unfold alternativesOf at hm
    split at hm
    · rename_i untold
      obtain ⟨inner, member, p, here, typed⟩ := exists_left_of_forall₂ placed hm
      refine ⟨inner, member, ?_, allows inner p alternative here typed null⟩
      intro property mapping told
      rw [untold] at told
      cases told
    · rename_i property mapping told
      obtain ⟨inner, member, type, -, ⟨p, here, typed⟩, rfl⟩ := exists_of_mem_zipWith placed hm
      obtain ⟨bare, null⟩ := untagged_of_includesNull null
      refine ⟨inner, member, ?_, allows inner p type here typed null⟩
      intro property' mapping' told'
      rw [told] at told'
      cases told'
      exact bare

theorem all_allows (formed : ∀ (inner : Inner node) p type, index.get? p = some inner.node →
      typed inner p type → WellFormed type) {inners : List (Inner node)} {type : TypeExpr}
    (stands : ListStands index (place.child "allOf") inners)
    (h : AllUnderTyped typed place (some inners) [type]) (has : type.includesNull = true) :
    ∃ inner, inners = [inner] ∧ AllowsNull index inner.node := by
  obtain ⟨made, list, same⟩ := h
  cases same
  obtain ⟨only, rfl, null⟩ :=
    includesNull_of_intersectionOf (list.preserved_of_stands formed stands) has
  have placed := list.placed_of_stands stands
  cases placed with
  | @cons inner _ rest _ first others =>
    cases others
    obtain ⟨p, here, typed⟩ := first
    exact ⟨inner, rfl, allows inner p only here typed null⟩

/-- A composite with null among the alternatives of its type is nothing but one schema or one
choice. -/
theorem composite_allows {state : State} (formed : ∀ (inner : Inner node) p type,
      index.get? p = some inner.node → typed inner p type → WellFormed type)
    {composition : Composition (Inner node)} {base : Option (Base (Inner node))} {type : TypeExpr}
    {choiceHasNull : Bool} (stands : index.get? place = some node)
    (composite : shape node = .composite composition base)
    (h : CompositeTyped typed place state composition base type choiceHasNull)
    (has : type.includesNull = true) : AllowsNull index node := by
  have kept := Api.wellFormed_preserved index state
  have read := shape_read node
  rw [composite] at read
  have written : composition.isEmpty = false := read.2.1
  have standing : ShapeStands index place (shape node) := shape_stands stands
  rw [composite] at standing
  obtain ⟨parts, bases⟩ := standing
  obtain ⟨ofBase, ofAll, ofOne, ofAny, ofNot, based, all, one, any, not, rfl, -⟩ := h
  have each : ∀ type ∈ ofBase ++ ofAll ++ ofOne ++ ofAny ++ ofNot, WellFormed type := by
    intro type hm
    simp only [List.mem_append] at hm
    rcases hm with (((hm | hm) | hm) | hm) | hm
    · exact based.preserved kept formed bases type hm
    · exact all.preserved kept formed parts.allOf type hm
    · exact one.preserved kept formed parts.oneOf type hm
    · exact any.preserved kept formed parts.anyOf type hm
    · exact not.preserved kept stands composite type hm
  obtain ⟨whole, single, null⟩ := includesNull_of_intersectionOf each has
  obtain ⟨allOf, oneOf, anyOf, excluded⟩ := composition
  simp only [List.append_eq_singleton_iff, List.append_eq_nil_iff] at single
  rcases single with ⟨⟨⟨⟨rfl, rfl⟩, rfl⟩, rfl⟩, rfl⟩ |
    ⟨⟨⟨⟨rfl, rfl⟩, rfl⟩, rfl⟩ | ⟨⟨⟨rfl, rfl⟩, rfl⟩ | ⟨⟨rfl, rfl⟩ | ⟨rfl, rfl⟩, rfl⟩, rfl⟩, rfl⟩
  case inl =>
    -- what is excluded is not known to be anything
    cases excluded with
    | none => cases (not : [whole] = [])
    | some schema =>
      obtain ⟨type, noted, same⟩ := not
      cases same
      rw [noted.1] at null
      cases null
  case inr.inl =>
    obtain rfl := BaseUnderTyped.absent based
    obtain rfl := AllUnderTyped.absent all
    obtain rfl := ChoiceUnderTyped.absent one
    obtain rfl := NotUnderTyped.absent not
    obtain ⟨inners, rfl, inner, member, untagged, inside⟩ :=
      choice_allows allows parts.anyOf any (List.mem_singleton_self whole) null
    exact .choice composite ⟨rfl, rfl, .inr ⟨rfl, rfl⟩⟩ member untagged inside
  case inr.inr.inl =>
    obtain rfl := BaseUnderTyped.absent based
    obtain rfl := AllUnderTyped.absent all
    obtain rfl := ChoiceUnderTyped.absent any
    obtain rfl := NotUnderTyped.absent not
    obtain ⟨inners, rfl, inner, member, untagged, inside⟩ :=
      choice_allows allows parts.oneOf one (List.mem_singleton_self whole) null
    exact .choice composite ⟨rfl, rfl, .inl ⟨rfl, rfl⟩⟩ member untagged inside
  case inr.inr.inr.inl =>
    obtain rfl := BaseUnderTyped.absent based
    obtain rfl := ChoiceUnderTyped.absent one
    obtain rfl := ChoiceUnderTyped.absent any
    obtain rfl := NotUnderTyped.absent not
    cases allOf with
    | none => cases (all : [whole] = [])
    | some inners =>
      obtain ⟨inner, rfl, inside⟩ := all_allows allows formed (parts.allOf inners rfl) all null
      exact .all composite inside
  case inr.inr.inr.inr =>
    obtain rfl := AllUnderTyped.absent all
    obtain rfl := ChoiceUnderTyped.absent one
    obtain rfl := ChoiceUnderTyped.absent any
    obtain rfl := NotUnderTyped.absent not
    cases written

end

/-! ## Schemas -/

section
variable {index : Index} {state : State} (ordered : state.Ordered index)
  (formed : ∀ entry ∈ state.expanded, WellFormed entry.2)
include formed

theorem wellFormed_upTo {count : Nat} {node : Json} {place : Pointer} {type : TypeExpr}
    (stands : index.get? place = some node)
    (h : NodeTyped index (state.upTo count) node place type) : WellFormed type := by
  apply NodeTyped.preserved (Api.wellFormed_preserved index _) _ node place type stands h
  intro entry hm
  exact formed entry (List.mem_of_mem_take hm)

include ordered

/-- Of a type made when `count` types were recorded. The induction is on `count`, as the type for a
reference may repeat one recorded, and for these on the schema. -/
theorem allowsNull_of_includesNull (count : Nat) (node : Json) {place : Pointer} {type : TypeExpr}
    (stands : index.get? place = some node)
    (h : NodeTyped index (state.upTo count) node place type) (has : type.includesNull = true) :
    AllowsNull index node := by
  by_cases nullable : isNullable node = true
  · exact .nullable nullable
  obtain ⟨bare, choiceHasNull, made, null⟩ := nodeTyped_iff.1 h
  unfold NullTyped at null
  rw [if_neg nullable] at null
  subst null
  have inner (i : Inner node) (p : Pointer) (t : TypeExpr) (here : index.get? p = some i.node)
      (typed : NodeTyped index (state.upTo count) i.node p t) (has : t.includesNull = true) :
      AllowsNull index i.node :=
    allowsNull_of_includesNull count i.node here typed has
  cases said : shape node with
  | any | nothing =>
    rw [said] at made
    rw [made.1] at has
    cases has
  | reference reference =>
    rw [said] at made
    obtain ⟨⟨target, leads, typed⟩, -⟩ := made
    rcases typed with ⟨name, -, rfl⟩ | recorded
    · cases has
    · obtain ⟨fewer, less, found, here, earlier⟩ := ordered.of_mem recorded
      rw [target.found] at here
      cases here
      exact .reference said leads (allowsNull_of_includesNull fewer target.node target.found earlier has)
  | enumeration values =>
    rw [said] at made
    obtain ⟨⟨types, listed, rfl⟩, -⟩ := made
    obtain ⟨type, hm, null⟩ := includesNull_of_unionOf has
    obtain ⟨value, member, typed⟩ := exists_left_of_forall₂ listed hm
    obtain rfl := null_of_literal typed null
    exact .named (said ▸ member)
  | enumerationWithComposition | unsupported =>
    rw [said] at made
    rw [made.1.1] at has
    cases has
  | constant value =>
    rw [said] at made
    exact .named (said ▸ null_of_literal made.1 has)
  | structural base =>
    rw [said] at made
    exact .named (said ▸ null_of_base made.1 has)
  | composite composition base =>
    rw [said] at made
    exact composite_allows inner (fun i p t here typed => wellFormed_upTo formed here typed)
      stands said made has
termination_by (count, sizeOf node)
decreasing_by
  · exact .right _ i.smaller
  · exact .left _ _ less

/-- A choice that has null by its types has it for a reason in the document. -/
theorem nullAllowed_of_choice {node : Json} {place : Pointer} (stands : index.get? place = some node)
    (h : ChoiceHasNull index state node place) : NullAllowed index node := by
  obtain ⟨bare, made⟩ := h
  cases said : shape node with
  | composite composition base =>
    have standing : ShapeStands index place (shape node) := shape_stands stands
    rw [said] at made standing
    obtain ⟨_, _, ofOne, ofAny, _, -, -, one, any, -, -, has⟩ := made
    have allows (i : Inner node) (p : Pointer) (t : TypeExpr) (here : index.get? p = some i.node)
        (typed : NodeTyped index state i.node p t) (null : t.includesNull = true) :
        AllowsNull index i.node := by
      rw [← State.upTo_length state] at typed
      exact allowsNull_of_includesNull ordered formed _ i.node here typed null
    obtain ⟨type, hm, null⟩ := List.any_eq_true.1 has.symm
    rcases List.mem_append.1 hm with hm | hm
    · obtain ⟨inners, listed, inner, member, untagged, inside⟩ :=
        choice_allows allows standing.1.oneOf one hm null
      exact ⟨composition, base, inners, inner, said, .inl listed, member, untagged, inside⟩
    · obtain ⟨inners, listed, inner, member, untagged, inside⟩ :=
        choice_allows allows standing.1.anyOf any hm null
      exact ⟨composition, base, inners, inner, said, .inr listed, member, untagged, inside⟩
  | _ =>
    rw [said] at made
    cases made.2

end

end ApiTypes.Meaning
