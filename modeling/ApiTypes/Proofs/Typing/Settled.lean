import ApiTypes.Proofs.Typing.Result

/-!
# What is settled for references

When a schema is typed once more, each of its references has been followed before: it leads to a
name, or to a short type that is recorded and will be repeated. `State.settled` is the state as
such references see it. There a schema has one type (`NodeTyped.unique`), and as long as typing goes
on along a path (`Steady`) it keeps it.
-/

namespace ApiTypes.Typing

open Schema

/-! ## Types that are repeated -/

/-- The type that a reference to a place repeats, while the places on `path` are being expanded: the
type recorded for it, when that is short and the place has no name. -/
def State.repeated? (state : State) (path : List Pointer) (place : Pointer) : Option TypeExpr :=
  if (state.names.get? place).isNone && !path.contains place then
    (state.expanded.lookup place).filter TypeExpr.isSimple
  else none

/-- The state with no types recorded but those that references repeat. -/
def State.settled (state : State) (path : List Pointer) : State :=
  { state with expanded := state.expanded.filterMap fun entry =>
      (state.repeated? path entry.1).map (entry.1, ·) }

/-- What goes on while the places on `path` are being expanded: what references repeat is not
promoted. -/
structure Steady (path : List Pointer) (state later : State) : Prop where
  grows : state.Grows later
  repeated : ∀ place type, state.repeated? path place = some type →
    later.repeated? path place = some type

section
variable {path : List Pointer} {a b c state : State} {place : Pointer} {type : TypeExpr}

theorem repeated?_eq_some : state.repeated? path place = some type ↔
    state.names.get? place = none ∧ place ∉ path ∧ state.expanded.lookup place = some type ∧
      type.isSimple = true := by
  simp only [State.repeated?, Option.ite_none_right_eq_some, Bool.and_eq_true, Option.isNone_iff_eq_none,
    Bool.not_eq_true', List.contains_eq_mem, decide_eq_false_iff_not, Option.filter_eq_some_iff, and_assoc]

theorem mem_settled : (place, type) ∈ (state.settled path).expanded ↔
    state.repeated? path place = some type := by
  simp only [State.settled, List.mem_filterMap, Option.map_eq_some_iff, Prod.mk.injEq]
  constructor
  · rintro ⟨entry, -, t, ht, rfl, rfl⟩
    exact ht
  · intro h
    have recorded := mem_of_lookup (repeated?_eq_some.1 h).2.2.1
    exact ⟨_, recorded, type, h, rfl, rfl⟩

theorem Steady.refl (path : List Pointer) (state : State) : Steady path state state :=
  ⟨.refl state, fun _ _ h => h⟩

theorem Steady.trans (hab : Steady path a b) (hbc : Steady path b c) : Steady path a c :=
  ⟨hab.grows.trans hbc.grows, fun place type h => hbc.repeated place type (hab.repeated place type h)⟩

theorem State.Grows.lookup (grows : a.Grows b) (h : a.expanded.lookup place = some type) :
    b.expanded.lookup place = some type := by
  obtain ⟨more, he⟩ := grows.expanded
  rw [← he, List.lookup_append, h, Option.some_or]

/-! ### Steps along a path -/

theorem steady_of_names (grows : a.Grows b) (same : b.names = a.names) : Steady path a b := by
  refine ⟨grows, fun place type h => ?_⟩
  obtain ⟨unnamed, outside, found, short⟩ := repeated?_eq_some.1 h
  exact repeated?_eq_some.2 ⟨same ▸ unnamed, outside, grows.lookup found, short⟩

/-- Promoting a place whose type is not repeated. -/
theorem steady_promoted {target : Pointer} {base : String} {promoted : List (Pointer × String)}
    (grows : state.Grows { state with names := state.names.extended target base, promoted })
    (h : state.repeated? path target = none) :
    Steady path state { state with names := state.names.extended target base, promoted } := by
  refine ⟨grows, fun place type hr => ?_⟩
  obtain ⟨unnamed, outside, found, short⟩ := repeated?_eq_some.1 hr
  have other : place ≠ target := by
    rintro rfl
    rw [h] at hr
    cases hr
  have still := (NameTable.get?_extended_of_ne base other).trans unnamed
  exact repeated?_eq_some.2 ⟨still, outside, found, short⟩

/-- What goes on while one place more is being expanded, when that place is not recorded. -/
theorem Steady.narrow {target : Pointer} (h : Steady (path ++ [target]) a b)
    (new : a.expanded.lookup target = none) : Steady path a b := by
  refine ⟨h.grows, fun place type hr => ?_⟩
  obtain ⟨unnamed, outside, found, short⟩ := repeated?_eq_some.1 hr
  have other : place ≠ target := by
    rintro rfl
    rw [new] at found
    cases found
  have still := h.repeated place type <|
    repeated?_eq_some.2 ⟨unnamed, by simp [outside, other], found, short⟩
  obtain ⟨unnamed, -, found, short⟩ := repeated?_eq_some.1 still
  exact repeated?_eq_some.2 ⟨unnamed, outside, found, short⟩

end

/-! ## One type for a schema -/

theorem TargetTyped.unique {state : State} {path : List Pointer} {target : Pointer}
    {type type' : TypeExpr} (h : TargetTyped (state.settled path) target type)
    (h' : TargetTyped (state.settled path) target type') : type = type' := by
  have named {name : String} {t : TypeExpr} (hn : state.names.get? target = some name)
      (ht : (target, t) ∈ (state.settled path).expanded) : False := by
    have unnamed := (repeated?_eq_some.1 (mem_settled.1 ht)).1
    rw [unnamed] at hn
    cases hn
  rcases h with ⟨name, hn, rfl⟩ | h <;> rcases h' with ⟨name', hn', rfl⟩ | h'
  · exact congrArg TypeExpr.ref (Option.some.inj (hn.symm.trans hn'))
  · exact (named hn h').elim
  · exact (named hn' h).elim
  · exact Option.some.inj ((mem_settled.1 h).symm.trans (mem_settled.1 h'))

section
variable {node : Json} {typed : InnerTyped node} {place : Pointer} {state : State}

theorem LiteralTyped.unique {value : Json} {type type' : TypeExpr}
    (h : LiteralTyped state place value type) (h' : LiteralTyped state place value type') :
    type = type' := by
  unfold LiteralTyped at h h'
  split at h
  · exact h.trans h'.symm
  · exact h.trans h'.symm
  · exact h.trans h'.symm
  · exact h.trans h'.symm
  · exact h.trans h'.symm
  · exact h.1.trans h'.1.symm
  · exact h.1.trans h'.1.symm

variable (once : ∀ inner p type type', typed inner p type → typed inner p type' → type = type')
include once

theorem ListTyped.unique {number : Nat} {inners : List (Inner node)} {types types' : List TypeExpr}
    (h : ListTyped typed place number inners types) (h' : ListTyped typed place number inners types') :
    types = types' := by
  induction h generalizing types' with
  | nil =>
    cases h'
    rfl
  | cons first _ ih =>
    cases h' with
    | cons first' rest' => rw [once _ _ _ _ first first', ih rest']

theorem FieldsTyped.unique {fields : List (String × Inner node)} {types types' : List TypeExpr}
    (h : FieldsTyped typed place fields types) (h' : FieldsTyped typed place fields types') :
    types = types' := by
  induction h generalizing types' with
  | nil =>
    cases h'
    rfl
  | cons first _ ih =>
    cases h' with
    | cons first' rest' => rw [once _ _ _ _ first first', ih rest']

theorem AdditionalTyped.unique {additional : Additional (Inner node)} {type type' : Option TypeExpr}
    (h : AdditionalTyped typed place additional type)
    (h' : AdditionalTyped typed place additional type') : type = type' := by
  cases additional with
  | schema inner =>
    obtain ⟨t, rfl, h⟩ := h
    obtain ⟨t', rfl, h'⟩ := h'
    rw [once _ _ _ _ h h']
  | _ => exact Eq.trans h h'.symm

theorem CoreTyped.unique {core : Core (Inner node)} {type type' : TypeExpr}
    (h : CoreTyped typed place core type) (h' : CoreTyped typed place core type') : type = type' := by
  cases core with
  | scalar kind => exact Eq.trans h h'.symm
  | array items =>
    cases items with
    | absent => exact Eq.trans h h'.symm
    | single inner =>
      obtain ⟨t, rfl, h⟩ := h
      obtain ⟨t', rfl, h'⟩ := h'
      rw [once _ _ _ _ h h']
    | tuple inners =>
      obtain ⟨types, h, rfl⟩ := h
      obtain ⟨types', h', rfl⟩ := h'
      rw [h.unique once h']
  | object shape =>
    obtain ⟨types, additional, hf, ha, rfl⟩ := h
    obtain ⟨types', additional', hf', ha', rfl⟩ := h'
    rw [hf.unique once hf', ha.unique once ha']

theorem BaseTyped.unique {base : Base (Inner node)} {type type' : TypeExpr}
    (h : BaseTyped typed place base type) (h' : BaseTyped typed place base type') : type = type' := by
  cases base with
  | one core => exact CoreTyped.unique once h h'
  | several cores =>
    obtain ⟨types, h, rfl⟩ := h
    obtain ⟨types', h', rfl⟩ := h'
    have same : types = types' := List.right_unique_forall₂'
      (show Relator.RightUnique (CoreTyped typed place) from fun _ _ _ => CoreTyped.unique once) h h'
    rw [same]

theorem ChoiceUnderTyped.unique {keyword : String} {inners : Option (List (Inner node))}
    {types types' : List TypeExpr} (h : ChoiceUnderTyped typed place keyword inners types)
    (h' : ChoiceUnderTyped typed place keyword inners types') : types = types' := by
  cases inners with
  | none => exact Eq.trans h h'.symm
  | some inners =>
    obtain ⟨ts, h, rfl⟩ := h
    obtain ⟨ts', h', rfl⟩ := h'
    rw [h.unique once h']

theorem AllUnderTyped.unique {inners : Option (List (Inner node))} {types types' : List TypeExpr}
    (h : AllUnderTyped typed place inners types) (h' : AllUnderTyped typed place inners types') :
    types = types' := by
  cases inners with
  | none => exact Eq.trans h h'.symm
  | some inners =>
    obtain ⟨ts, h, rfl⟩ := h
    obtain ⟨ts', h', rfl⟩ := h'
    rw [h.unique once h']

theorem BaseUnderTyped.unique {base : Option (Base (Inner node))} {types types' : List TypeExpr}
    (h : BaseUnderTyped typed place base types) (h' : BaseUnderTyped typed place base types') :
    types = types' := by
  cases base with
  | none => exact Eq.trans h h'.symm
  | some base =>
    obtain ⟨type, h, rfl⟩ := h
    obtain ⟨type', h', rfl⟩ := h'
    rw [h.unique once h']

omit once in
theorem NotUnderTyped.unique {schema : Option Json} {types types' : List TypeExpr}
    (h : NotUnderTyped state place schema types) (h' : NotUnderTyped state place schema types') :
    types = types' := by
  cases schema with
  | none => exact Eq.trans h h'.symm
  | some schema =>
    obtain ⟨type, h, rfl⟩ := h
    obtain ⟨type', h', rfl⟩ := h'
    rw [h.1, h'.1]

theorem CompositeTyped.unique {composition : Composition (Inner node)}
    {base : Option (Base (Inner node))} {type type' : TypeExpr} {choiceHasNull choiceHasNull' : Bool}
    (h : CompositeTyped typed place state composition base type choiceHasNull)
    (h' : CompositeTyped typed place state composition base type' choiceHasNull') :
    type = type' ∧ choiceHasNull = choiceHasNull' := by
  obtain ⟨ofBase, ofAll, ofOne, ofAny, ofNot, hb, ha, ho, hy, hn, rfl, rfl⟩ := h
  obtain ⟨ofBase', ofAll', ofOne', ofAny', ofNot', hb', ha', ho', hy', hn', rfl, rfl⟩ := h'
  rw [hb.unique once hb', ha.unique once ha', ho.unique once ho', hy.unique once hy', hn.unique hn']
  exact ⟨rfl, rfl⟩

theorem ShapeTyped.unique {index : Index} {path : List Pointer} {shape : Shape (Inner node)}
    {type type' : TypeExpr} {choiceHasNull choiceHasNull' : Bool}
    (h : ShapeTyped typed place index (state.settled path) shape type choiceHasNull)
    (h' : ShapeTyped typed place index (state.settled path) shape type' choiceHasNull') :
    type = type' ∧ choiceHasNull = choiceHasNull' := by
  cases shape with
  | any | nothing => exact ⟨h.1.trans h'.1.symm, h.2.trans h'.2.symm⟩
  | reference reference =>
    obtain ⟨⟨target, ht, typed⟩, hn⟩ := h
    obtain ⟨⟨target', ht', typed'⟩, hn'⟩ := h'
    rw [ht] at ht'
    cases ht'
    exact ⟨typed.unique typed', hn.trans hn'.symm⟩
  | enumeration values =>
    obtain ⟨⟨types, hl, rfl⟩, hn⟩ := h
    obtain ⟨⟨types', hl', rfl⟩, hn'⟩ := h'
    have same : types = types' := List.right_unique_forall₂'
      (show Relator.RightUnique (LiteralTyped _ place) from fun _ _ _ => LiteralTyped.unique) hl hl'
    exact ⟨congrArg _ same, hn.trans hn'.symm⟩
  | enumerationWithComposition | unsupported =>
    exact ⟨h.1.1.trans h'.1.1.symm, h.2.trans h'.2.symm⟩
  | constant value => exact ⟨h.1.unique h'.1, h.2.trans h'.2.symm⟩
  | composite composition base => exact CompositeTyped.unique once h h'
  | structural base => exact ⟨h.1.unique once h'.1, h.2.trans h'.2.symm⟩

end

/-- By what is settled on a path, a schema has one type. -/
theorem NodeTyped.unique {index : Index} {state : State} {path : List Pointer} (node : Json)
    (place : Pointer) (type type' : TypeExpr)
    (h : NodeTyped index (state.settled path) node place type)
    (h' : NodeTyped index (state.settled path) node place type') : type = type' := by
  obtain ⟨bare, choiceHasNull, hs, hn⟩ := nodeTyped_iff.1 h
  obtain ⟨bare', choiceHasNull', hs', hn'⟩ := nodeTyped_iff.1 h'
  obtain ⟨rfl, rfl⟩ := hs.unique (fun inner => NodeTyped.unique inner.node) hs'
  unfold NullTyped at hn hn'
  split at hn
  · rename_i nullable
    rw [if_pos nullable] at hn'
    split at hn
    · rename_i choice
      rw [if_pos choice] at hn'
      exact hn.1.trans hn'.1.symm
    · rename_i choice
      rw [if_neg choice] at hn'
      exact hn.trans hn'.symm
  · rename_i nullable
    rw [if_neg nullable] at hn'
    exact hn.trans hn'.symm
termination_by sizeOf node
decreasing_by exact inner.smaller

end ApiTypes.Typing
