import ApiTypes.Proofs.TypeExpr.Size
import ApiTypes.Proofs.Typing.EqualsItself
import ApiTypes.Proofs.Typing.Load
import ApiTypes.Proofs.Typing.Run
import ApiTypes.Proofs.Typing.Settled
import Mathlib.Data.List.Dedup
import Mathlib.Tactic.Ring

/-!
# What typing costs

A type is no larger than what its schema and the expansions made on the way allow. Every expansion
pays for the type it makes once, and once more for each schema around the reference that lists a
kind again, as the type may be repeated there once before its target is promoted.

* `Costs`: what is said about an action, closed under sequencing (`Costs.bind`), so that each part
  of typing has one lemma;
* `Costs.again`: what is typed again is either what it was before, or paid for by an expansion;
* `typeAt_makes`: the type of a schema fits in its load and what the expansions made for it paid.
-/

namespace ApiTypes.Typing

open Schema TypeExpr Json

/-- What types may take. -/
structure Budget where
  /-- How large the types that references repeat may be. -/
  limit : Nat
  /-- What a schema may weigh. -/
  charge : Nat
  /-- How deep schemas that list a kind again may nest. -/
  levels : Nat

/-- A budget is enough for a document, of which all numbers are finite. -/
structure Budget.Covers (budget : Budget) (index : Index) : Prop where
  finite : index.document.root.Finite
  charge : index.document.root.weight budget.limit ≤ budget.charge
  levels : index.document.root.repeats ≤ budget.levels
  positive : 0 < budget.limit

/-- What the expansions made so far paid. -/
def Budget.paid (budget : Budget) (state : State) : Nat :=
  (budget.levels + 1) * budget.charge * state.expanded.length

/-- What is left of an expansion's payment when schemas that list a kind again were typed as deep as
`level`. -/
def Budget.left (budget : Budget) (level : Nat) : Nat :=
  (budget.levels - level) * budget.charge

/-- The types recorded equal themselves, and short ones are within a limit. -/
structure State.Within (limit : Nat) (state : State) : Prop where
  equal : ∀ entry ∈ state.expanded, EqualsItself entry.2
  short : ∀ entry ∈ state.expanded, entry.2.isSimple = true → entry.2.size ≤ limit

theorem State.Within.earlier {limit : Nat} {state later : State} (h : later.Within limit)
    (grows : state.Grows later) : state.Within limit :=
  ⟨fun entry hm => h.equal entry (grows.expanded.subset hm),
    fun entry hm => h.short entry (grows.expanded.subset hm)⟩

section
variable {α β : Type} (budget : Budget) (path : List Pointer)

/-- When the action has a result from a state, what references repeat is not promoted on the way, and
the result takes some `k`: at most `cost` and what expansions on the way paid, of which they leave
what `level` leaves. From then on `post` holds of it. It is told whether all was calm, that is
nothing was expanded. -/
def CostsFrom (level : Nat) (state : State) (action : TypingM α) (cost : Nat)
    (post : State → Bool → α → Nat → Prop) : Prop :=
  ∀ a after, action.run.run state = (.ok a, after) → Steady path state after ∧
    (after.Within budget.limit → ∃ k calm,
      (calm = true → after.expanded.length = state.expanded.length) ∧
      k + budget.paid state + (if calm then 0 else budget.left level) ≤ cost + budget.paid after ∧
      ∀ later, Steady path after later → post later calm a k)

/-- What an action costs from every state. -/
def Costs (level : Nat) (action : TypingM α) (cost : Nat) (post : State → Bool → α → Nat → Prop) :
    Prop :=
  ∀ state, CostsFrom budget path level state action cost post

/-- The result takes what `fits` says, and when nothing was expanded, `typed` holds of it. -/
def Makes (level : Nat) (action : TypingM α) (cost : Nat) (fits : α → Nat → Prop)
    (typed : State → α → Prop) : Prop :=
  Costs budget path level action cost fun later calm a k =>
    fits a k ∧ (calm = true → typed later a)

variable {budget path} {level cost more : Nat} {action : TypingM α} {next : α → TypingM β}

theorem CostsFrom.bind {state : State} {mid : State → Bool → α → Nat → Prop}
    {post : State → Bool → β → Nat → Prop}
    (ha : CostsFrom budget path level state action cost mid)
    (hn : ∀ a, Costs budget path level (next a) more fun later calm b m =>
      ∀ still k, mid later still a k → post later (still && calm) b (k + m)) :
    CostsFrom budget path level state (action >>= next) (cost + more) post := by
  intro b after he
  rcases hr : action.run.run state with ⟨_ | a, between⟩
  · rw [run_bind_of_error hr] at he
    cases he
  · rw [run_bind_of_ok hr] at he
    obtain ⟨first, ofFirst⟩ := ha a between hr
    obtain ⟨second, ofSecond⟩ := hn a between b after he
    refine ⟨first.trans second, fun within => ?_⟩
    obtain ⟨k, still, same, paid, holds⟩ := ofFirst (within.earlier second.grows)
    obtain ⟨m, calm, same', paid', holds'⟩ := ofSecond within
    refine ⟨k + m, still && calm, ?_, ?_, fun later steady => ?_⟩
    · cases still <;> cases calm <;> simp_all
    · cases still <;> cases calm <;> simp only [Bool.and_true, Bool.and_false, if_true,
        Bool.false_eq_true, if_false] at paid paid' ⊢ <;> omega
    · exact holds' later steady still k (holds later (second.trans steady))

theorem Costs.bind {mid : State → Bool → α → Nat → Prop}
    {post : State → Bool → β → Nat → Prop}
    (ha : Costs budget path level action cost mid)
    (hn : ∀ a, Costs budget path level (next a) more fun later calm b m =>
      ∀ still k, mid later still a k → post later (still && calm) b (k + m)) :
    Costs budget path level (action >>= next) (cost + more) post :=
  fun state => (ha state).bind hn

theorem CostsFrom.pure {state : State} {a : α} (cost : Nat) {post : State → Bool → α → Nat → Prop}
    (h : state.Within budget.limit → ∀ later, Steady path state later → post later true a cost) :
    CostsFrom budget path level state (Pure.pure a) cost post := by
  intro b after he
  cases he
  exact ⟨.refl path state, fun within => ⟨cost, true, fun _ => rfl, by simp, h within⟩⟩

theorem Costs.pure {a : α} (cost : Nat) {post : State → Bool → α → Nat → Prop}
    (h : ∀ later, post later true a cost) : Costs budget path level (Pure.pure a) cost post :=
  fun _ => .pure cost fun _ later _ => h later

/-- An action that starts by reading the state goes on from that state. -/
theorem CostsFrom.get {state : State} {next : State → TypingM α}
    {post : State → Bool → α → Nat → Prop}
    (h : CostsFrom budget path level state (next state) cost post) :
    CostsFrom budget path level state (MonadState.get >>= next) cost post :=
  h

theorem CostsFrom.imp {state : State} {post post' : State → Bool → α → Nat → Prop}
    {cost' level' : Nat} (h : CostsFrom budget path level state action cost post) (le : cost ≤ cost')
    (deeper : level ≤ level') (hp : ∀ later calm a k, post later calm a k → post' later calm a k) :
    CostsFrom budget path level' state action cost' post' := by
  intro a after he
  obtain ⟨steady, paid⟩ := h a after he
  refine ⟨steady, fun within => ?_⟩
  obtain ⟨k, calm, same, paid, holds⟩ := paid within
  have less : budget.left level' ≤ budget.left level :=
    Nat.mul_le_mul_right _ (Nat.sub_le_sub_left deeper _)
  refine ⟨k, calm, same, ?_, fun later steady => hp _ _ _ _ (holds later steady)⟩
  cases calm <;> simp only [if_true, Bool.false_eq_true, if_false] at paid ⊢ <;> omega

theorem Costs.imp {post post' : State → Bool → α → Nat → Prop} {cost' level' : Nat}
    (h : Costs budget path level action cost post) (le : cost ≤ cost') (deeper : level ≤ level')
    (hp : ∀ later calm a k, post later calm a k → post' later calm a k) :
    Costs budget path level' action cost' post' :=
  fun state => (h state).imp le deeper hp

section
variable {fits : α → Nat → Prop} {typed : State → α → Prop}

theorem Makes.pure {a : α} (cost : Nat) (h : fits a cost) (ht : ∀ later, typed later a) :
    Makes budget path level (Pure.pure a) cost fits typed :=
  Costs.pure cost fun later => ⟨h, fun _ => ht later⟩

theorem Makes.bind {fits' : β → Nat → Prop} {typed' : State → β → Prop}
    (ha : Makes budget path level action cost fits typed)
    (hn : ∀ a, Makes budget path level (next a) more (fun b m => ∀ k, fits a k → fits' b (k + m))
      fun later b => typed later a → typed' later b) :
    Makes budget path level (action >>= next) (cost + more) fits' typed' := by
  refine Costs.bind ha fun a => (hn a).imp (Nat.le_refl _) (Nat.le_refl _) ?_
  rintro later calm b m ⟨taken, made⟩ still k ⟨before, earlier⟩
  refine ⟨taken k before, fun both => ?_⟩
  obtain ⟨hs, hc⟩ := Bool.and_eq_true_iff.1 both
  exact made hc (earlier hs)

theorem Makes.mono {cost' level' : Nat} (h : Makes budget path level action cost fits typed)
    (le : cost ≤ cost') (deeper : level ≤ level') :
    Makes budget path level' action cost' fits typed :=
  Costs.imp h le deeper fun _ _ _ _ hp => hp

theorem Makes.unchosen {action : TypingM TypeExpr} {typed : State → TypeExpr → Prop}
    (h : Makes budget path level action cost Fits typed) :
    Makes budget path level (do return (← action, false)) cost (fun result k => result.1.Fits k)
      fun later result => typed later result.1 ∧ result.2 = false := by
  refine h.bind fun type => .pure 0 ?_ ?_
  · exact fun k fits => fits
  · exact fun _ ht => ⟨ht, rfl⟩

theorem Makes.map {f : α → β} (more : Nat) {fits' : β → Nat → Prop} {typed' : State → β → Prop}
    (h : Makes budget path level action cost fits typed)
    (hf : ∀ a k, fits a k → fits' (f a) (k + more))
    (ht : ∀ later a, typed later a → typed' later (f a)) :
    Makes budget path level (f <$> action) (cost + more) fits' typed' := by
  rw [map_eq_pure_bind]
  exact h.bind fun a => .pure more (hf a) fun later => ht later a

end

/-- What holds of the results by itself holds of them besides. -/
theorem Costs.also {post : State → Bool → α → Nat → Prop} {Q : α → Prop}
    (h : Costs budget path level action cost post)
    (hq : ∀ state a after, action.run.run state = (.ok a, after) → after.Within budget.limit → Q a) :
    Costs budget path level action cost fun later calm a k => post later calm a k ∧ Q a := by
  intro state a after he
  obtain ⟨steady, paid⟩ := h state a after he
  refine ⟨steady, fun within => ?_⟩
  obtain ⟨k, calm, same, paid, holds⟩ := paid within
  exact ⟨k, calm, same, paid, fun later steady => ⟨holds later steady, hq state a after he within⟩⟩

/-- What is typed again takes nothing more: either nothing was expanded, and it is what was typed
before, or one of the expansions on the way pays for it. -/
theorem Costs.again {post : State → Bool → α → Nat → Prop}
    (h : Costs budget path level action cost post) (le : cost ≤ budget.charge)
    (deep : level < budget.levels) :
    Costs budget path (level + 1) action 0 fun later calm a k =>
      (calm = true ∧ k = 0 ∧ ∃ m ≤ cost, post later true a m) ∨
        (calm = false ∧ post later false a k) := by
  intro state a after he
  obtain ⟨steady, paid⟩ := h state a after he
  refine ⟨steady, fun within => ?_⟩
  obtain ⟨k, calm, same, paid, holds⟩ := paid within
  cases calm with
  | true =>
    have unpaid : budget.paid after = budget.paid state := by
      rw [Budget.paid, Budget.paid, same rfl]
    refine ⟨0, true, same, ?_, fun later steady => .inl ⟨rfl, rfl, k, ?_, holds later steady⟩⟩
    · simp only [if_true]
      omega
    · simp only [if_true] at paid
      omega
  | false =>
    have one : budget.left level = budget.left (level + 1) + budget.charge := by
      rw [Budget.left, Budget.left, ← Nat.succ_mul]
      congr 1
      omega
    refine ⟨k, false, same, ?_, fun later steady => .inr ⟨rfl, holds later steady⟩⟩
    simp only [Bool.false_eq_true, if_false] at paid ⊢
    omega

end

/-! ## Values and notes -/

section
variable {budget : Budget} {path : List Pointer} {level : Nat} {place : Pointer}

theorem warn_makes (kind : WarningKind) (message : String) :
    Makes budget path level (warn kind place message) 0 (fun _ _ => True)
      fun later _ => ⟨kind, some place, message⟩ ∈ later.warnings := by
  intro state _ after he
  cases he
  have grows := state.grows_warn ⟨kind, some place, message⟩
  refine ⟨steady_of_names grows rfl, fun _ => ⟨0, true, fun _ => rfl, by simp [Budget.paid], ?_⟩⟩
  intro later steady
  exact ⟨trivial, fun _ => steady.grows.warnings.subset (List.mem_append_right _ List.mem_cons_self)⟩

theorem unsupported_makes (reason : String) :
    Makes budget path level (unsupported place reason) 1 Fits
      fun later type => Noted (later.settled path) .unsupportedShape place reason type :=
  Makes.mono ((warn_makes .unsupportedShape reason).bind fun _ =>
    .pure 1 (fun _ _ => fits_of_size_le (Nat.le_add_left _ _)) fun _ hw => ⟨rfl, hw⟩)
    (Nat.le_refl 1) (Nat.le_refl _)

theorem ambiguous_makes (reason : String) :
    Makes budget path level (ambiguous place reason) 1 Fits
      fun later type => Noted (later.settled path) .ambiguousShape place reason type :=
  Makes.mono ((warn_makes .ambiguousShape reason).bind fun _ =>
    .pure 1 (fun _ _ => fits_of_size_le (Nat.le_add_left _ _)) fun _ hw => ⟨rfl, hw⟩)
    (Nat.le_refl 1) (Nat.le_refl _)

theorem literalType_makes (value : Json) :
    Makes budget path level (literalType place value) 1 Fits
      fun later type => LiteralTyped (later.settled path) place value type := by
  unfold literalType
  split
  · exact .pure 1 (fits_of_size_le (Nat.le_refl 1)) fun _ => rfl
  · exact .pure 1 (fits_of_size_le (Nat.le_refl 1)) fun _ => rfl
  · exact .pure 1 (fits_of_size_le (Nat.le_refl 1)) fun _ => rfl
  · exact .pure 1 (fits_of_size_le (Nat.le_refl 1)) fun _ => rfl
  · exact .pure 1 (fits_of_size_le (Nat.le_refl 1)) fun _ => rfl
  · exact unsupported_makes _
  · exact unsupported_makes _

theorem literalTypes_makes (values : List Json) :
    Makes budget path level (literalTypes place values) values.length FitAll
      fun later types => List.Forall₂ (LiteralTyped (later.settled path) place) values types := by
  induction values with
  | nil => exact .pure 0 fitAll_nil fun _ => .nil
  | cons value rest ih =>
    refine Makes.mono ((literalType_makes value).bind fun _ => ih.bind fun _ => .pure 0 ?_ ?_)
      (by rw [List.length_cons]; omega) (Nat.le_refl _)
    · exact fun m hr k hf => FitAll.cons hf hr
    · exact fun _ hr hf => .cons hf hr

end

/-! ## Lists and fields -/

section
variable {budget : Budget} {path : List Pointer} {level : Nat} {index : Index} {node : Json}
  {home : Pointer} {typeInner : TypeInner node} {typed : State → InnerTyped node}
  (inner : ∀ (inner : Inner node) place, index.get? place = some inner.node → home.Below place →
    Makes budget path level (typeInner inner place) (inner.node.load budget.limit) Fits
      fun later type => typed later inner place type)
  {place : Pointer}
include inner

theorem typesOfList_makes {inners : List (Inner node)} {number : Nat} (below : home.Below place)
    (h : ∀ (n : Nat) (i : Inner node), inners[n]? = some i →
      index.get? (place.element (number + n)) = some i.node) :
    Makes budget path level (typesOfList typeInner place number inners)
      (innersLoads budget.limit inners)
      (fun types k => FitAll types k ∧ types.length = inners.length)
      fun later types => ListTyped (typed later) place number inners types := by
  induction inners generalizing number with
  | nil => exact .pure 0 ⟨fitAll_nil, rfl⟩ fun _ => .nil
  | cons first rest ih =>
    have rest_stands (n : Nat) (i : Inner node) (hn : rest[n]? = some i) :
        index.get? (place.element (number + 1 + n)) = some i.node := by
      have := h (n + 1) i (by simpa using hn)
      rwa [show number + (n + 1) = number + 1 + n by omega] at this
    refine Makes.mono ((inner first _ (h 0 first rfl) (below.child _)).bind fun _ =>
      (ih rest_stands).bind fun _ => .pure 0 ?_ ?_) (Nat.le_refl _) (Nat.le_refl _)
    · exact fun m hr k hf => ⟨FitAll.cons hf hr.1, congrArg (· + 1) hr.2⟩
    · exact fun _ hr hf => .cons hf hr

theorem typesOfStanding_makes {inners : List (Inner node)} (below : home.Below place)
    (h : ListStands index place inners) :
    Makes budget path level (typesOfList typeInner place 0 inners) (innersLoads budget.limit inners)
      (fun types k => FitAll types k ∧ types.length = inners.length)
      fun later types => ListTyped (typed later) place 0 inners types :=
  typesOfList_makes inner below fun n i hn => by simpa using h n i hn

theorem typesOfFields_makes {fields : List (String × Inner node)} (below : home.Below place)
    (h : FieldsStand index place fields) :
    Makes budget path level (typesOfFields typeInner place fields)
      (innersLoads budget.limit (fields.map (·.2)))
      (fun types k => FitAll types k ∧ types.length = fields.length)
      fun later types => FieldsTyped (typed later) place fields types := by
  induction fields with
  | nil => exact .pure 0 ⟨fitAll_nil, rfl⟩ fun _ => .nil
  | cons first rest ih =>
    obtain ⟨key, i⟩ := first
    refine Makes.mono ((inner i _ (h.stands key i List.mem_cons_self) (below.child _)).bind fun _ =>
      (ih h.tail).bind fun _ => .pure 0 ?_ ?_) (Nat.le_refl _) (Nat.le_refl _)
    · exact fun m hr k hf => ⟨FitAll.cons hf hr.1, congrArg (· + 1) hr.2⟩
    · exact fun _ hr hf => .cons hf hr

/-! ## Kinds of value -/

theorem additionalType_makes {additional : Additional (Inner node)}
    (h : AdditionalStands index home additional) :
    Makes budget path level (additionalType typeInner home additional)
      (additionalLoad budget.limit additional)
      (fun type k => ∀ value, type = some value → value.Fits k)
      fun later type => AdditionalTyped (typed later) home additional type := by
  cases additional with
  | absent | forbidden => exact .pure 0 (by simp) fun _ => rfl
  | any =>
    refine .pure 1 (fun value hv => ?_) fun _ => rfl
    cases hv
    exact fits_of_size_le (Nat.le_refl 1)
  | schema i =>
    refine Makes.mono (.map 0 (inner i _ h (home.below_child _)) ?_ ?_) (load_le_weight _) (Nat.le_refl _)
    · rintro t k fits value hv
      cases hv
      exact fits
    · exact fun _ t ht => ⟨t, rfl, ht⟩

theorem objectType_makes {shape : ObjectShape (Inner node)}
    (h : CoreStands index home (.object shape)) :
    Makes budget path level (objectType typeInner shape home) (2 + objectLoad budget.limit shape)
      Fits fun later type => ObjectTyped (typed later) home shape type := by
  have lighter := innersLoads_le budget.limit ((shape.properties.getD []).map (·.2))
  refine Makes.mono ((typesOfFields_makes inner (home.below_child _) h.1).bind fun types =>
    (additionalType_makes inner h.2).bind fun additional => .pure 2 ?_ ?_)
    (by rw [objectLoad]; omega) (Nat.le_refl _)
  · intro m ofAdditional k ofTypes
    exact (fits_object ofTypes.2 ofTypes.1 ofAdditional).mono (by omega)
  · exact fun _ ha ht => ⟨types, additional, ht, ha, rfl⟩

theorem coreType_makes {core : Core (Inner node)} (h : CoreStands index home core) :
    Makes budget path level (coreType typeInner home core) (coreLoad budget.limit core) Fits
      fun later type => CoreTyped (typed later) home core type := by
  cases core with
  | scalar kind =>
    refine .pure 1 (fits_of_size_le ?_) fun _ => rfl
    cases kind <;> exact Nat.le_refl 1
  | array items =>
    cases items with
    | absent => exact .pure 2 (fits_of_size_le (Nat.le_refl 2)) fun _ => rfl
    | single i =>
      have lighter : i.node.load budget.limit ≤ _ := load_le_weight i.node
      refine Makes.mono (.map 1 (inner i _ h (home.below_child _)) (fun _ _ => fits_array) ?_)
        (by rw [coreLoad, itemsLoad]; omega) (Nat.le_refl _)
      exact fun _ t ht => ⟨t, rfl, ht⟩
    | tuple inners =>
      have lighter := innersLoads_le budget.limit inners
      refine Makes.mono ((typesOfStanding_makes inner (home.below_child _) h).bind fun types =>
        .pure 2 ?_ ?_) (by rw [coreLoad, itemsLoad]; omega) (Nat.le_refl _)
      · exact fun k ofTypes => fits_array (fits_unionOf ofTypes.1)
      · exact fun _ ht => ⟨types, ht, rfl⟩
  | object shape => exact objectType_makes inner h

/-- The types of kinds of value, each made for itself. -/
theorem coreTypes_makes {cores : List (Core (Inner node))}
    (h : ∀ core ∈ cores, CoreStands index home core) :
    Makes budget path level (coreTypes typeInner home cores)
      (cores.map (coreLoad budget.limit)).sum FitAll
      fun later types => List.Forall₂ (CoreTyped (typed later) home) cores types := by
  induction cores with
  | nil => exact .pure 0 fitAll_nil fun _ => .nil
  | cons core rest ih =>
    refine Makes.mono ((coreType_makes inner (h core List.mem_cons_self)).bind fun _ =>
      (ih fun core hm => h core (List.mem_cons_of_mem _ hm)).bind fun _ => .pure 0 ?_ ?_)
      (by rw [List.map_cons, List.sum_cons]; omega) (Nat.le_refl _)
    · exact fun m hr k hf => FitAll.cons hf hr
    · exact fun _ hr hf => .cons hf hr

/-- The types of kinds of value that may be repeated: those that an expansion was made for are paid
for, and the others are what their kind has settled for. -/
theorem coreTypes_again {cores : List (Core (Inner node))}
    (h : ∀ core ∈ cores, CoreStands index home core)
    (le : ∀ core ∈ cores, coreLoad budget.limit core ≤ budget.charge) (deep : level < budget.levels) :
    Costs budget path (level + 1) (coreTypes typeInner home cores) 0 fun later calm types k =>
      (calm = true → List.Forall₂ (CoreTyped (typed later) home) cores types) ∧
      ∃ paid, paid ⊆ types ∧ FitAll paid k ∧ ∀ type ∈ types, type ∈ paid ∨
        ∃ core ∈ cores, CoreTyped (typed later) home core type ∧
          type.Fits (coreLoad budget.limit core) := by
  induction cores with
  | nil =>
    refine .pure 0 fun _ => ⟨fun _ => .nil, [], List.Subset.refl _, fitAll_nil, ?_⟩
    simp
  | cons core rest ih =>
    have first := (coreType_makes inner (h core List.mem_cons_self)).again (le core List.mem_cons_self)
      deep
    have others := ih (fun core hm => h core (List.mem_cons_of_mem _ hm))
      fun core hm => le core (List.mem_cons_of_mem _ hm)
    refine first.bind fun type => others.bind fun types => .pure 0 ?_
    rintro later stillRest m ⟨settled, paid, part, fit, each⟩ still k made
    have others (t : TypeExpr) (hm : t ∈ types) : t ∈ paid ∨ ∃ core' ∈ core :: rest,
        CoreTyped (typed later) home core' t ∧ t.Fits (coreLoad budget.limit core') :=
      (each t hm).imp_right fun ⟨core', hm, ht⟩ => ⟨core', List.mem_cons_of_mem _ hm, ht⟩
    rcases made with ⟨rfl, rfl, taken, le, fits, typed⟩ | ⟨rfl, fits, -⟩
    · refine ⟨fun calm => .cons (typed rfl) (settled (by simpa using calm)), paid,
        List.subset_cons_of_subset _ part, by simpa using fit, fun t hm => ?_⟩
      rcases List.mem_cons.1 hm with rfl | hm
      · exact .inr ⟨core, List.mem_cons_self, typed rfl, fits.mono le⟩
      · exact others t hm
    · refine ⟨fun calm => by simp at calm, type :: paid, List.cons_subset_cons _ part,
        FitAll.cons fits fit, fun t hm => ?_⟩
      rcases List.mem_cons.1 hm with rfl | hm
      · exact .inl List.mem_cons_self
      · exact (others t hm).imp_left (List.mem_cons_of_mem _)

/-- A type that is made of a kind that a schema names. -/
def MadeOfKind (limit : Nat) (typed : InnerTyped node) (home : Pointer) (name : String)
    (type : TypeExpr) : Prop :=
  ∃ core, coreOf? node name = .ok core ∧ CoreTyped typed home core type ∧
    type.Fits (coreLoad limit core)

omit inner in
/-- Of types that are one for each kind, one for each kind is enough. -/
theorem exists_among (names : List String) {load : String → Nat} {made : String → TypeExpr → Prop}
    (once : ∀ name type type', made name type → made name type' → type = type')
    (fits : ∀ name type, made name type → type.Fits (load name)) :
    ∃ among, FitAll among ((names.map load).sum) ∧ (∀ type ∈ among, ∃ name, made name type) ∧
      ∀ name ∈ names, ∀ type, made name type → type ∈ among := by
  induction names with
  | nil => exact ⟨[], fitAll_nil, by simp, by simp⟩
  | cons name rest ih =>
    obtain ⟨among, fit, only, all⟩ := ih
    by_cases some : ∃ type, made name type
    · obtain ⟨type, ht⟩ := some
      refine ⟨type :: among, FitAll.cons (fits name type ht) fit, ?_, ?_⟩
      · rintro t hm
        rcases List.mem_cons.1 hm with rfl | hm
        · exact ⟨name, ht⟩
        · exact only t hm
      · rintro other hm t ht'
        rcases List.mem_cons.1 hm with rfl | hm
        · exact once _ _ _ ht' ht ▸ List.mem_cons_self
        · exact List.mem_cons_of_mem _ (all other hm t ht')
    · refine ⟨among, fit.mono (Nat.le_add_left _ _), only, ?_⟩
      rintro other hm t ht
      rcases List.mem_cons.1 hm with rfl | hm
      · exact absurd ⟨t, ht⟩ some
      · exact all other hm t ht

omit inner in
/-- A kind that has parts counts once where it is named once. -/
theorem sum_kindLoad_le_baseLoad {limit : Nat} {names : List String} {cores : List (Core (Inner node))}
    (length : names.length ≤ cores.length) (object : names.count "object" ≤ 1)
    (array : names.count "array" ≤ 1) :
    (names.map (kindLoad limit node)).sum + 1 ≤ baseLoad limit (.several cores) := by
  have := sum_kindLoad_le limit node names
  have := Nat.mul_le_mul_right (objectLoad limit (objectShape node)) object
  have := Nat.mul_le_mul_right (itemsLoad limit (items node)) array
  rw [baseLoad]
  omega

/-- The types of several kinds, none of them repeated that has parts. -/
theorem several_makes {names : List String} {cores : List (Core (Inner node))}
    (kinds : List.Forall₂ (fun name core => coreOf? node name = .ok core) names cores)
    (h : ∀ core ∈ cores, CoreStands index home core) (object : names.count "object" ≤ 1)
    (array : names.count "array" ≤ 1) :
    Makes budget path level (baseType typeInner home (.several cores))
      (baseLoad budget.limit (.several cores)) Fits
      fun later type => BaseTyped (typed later) home (.several cores) type := by
  have loads : cores.map (coreLoad budget.limit) = names.map (kindLoad budget.limit node) :=
    map_eq_of_forall₂ kinds fun _ _ => coreLoad_eq budget.limit
  refine Makes.mono ((coreTypes_makes inner h).bind fun types => .pure 1 ?_ ?_)
    (loads ▸ sum_kindLoad_le_baseLoad kinds.length_eq.le object array) (Nat.le_refl _)
  · exact fun k ofTypes => fits_unionOf ofTypes
  · exact fun _ ht => ⟨types, ht, rfl⟩

/-- The types of several kinds, however often they are repeated. -/
theorem several_again {names : List String} {cores : List (Core (Inner node))}
    (kinds : List.Forall₂ (fun name core => coreOf? node name = .ok core) names cores)
    (h : ∀ core ∈ cores, CoreStands index home core)
    (le : ∀ core ∈ cores, coreLoad budget.limit core ≤ budget.charge) (deep : level < budget.levels)
    (once : ∀ later i p type type', typed later i p type → typed later i p type' → type = type')
    (distinct : ∀ state types after, (coreTypes typeInner home cores).run.run state = (.ok types, after) →
      after.Within budget.limit → ∀ type ∈ types, EqualsItself type ∧ type.isUnion = false) :
    Makes budget path (level + 1) (baseType typeInner home (.several cores))
      (baseLoad budget.limit (.several cores)) Fits
      fun later type => BaseTyped (typed later) home (.several cores) type := by
  have apart := names.nodup_dedup
  have shorter : names.dedup.length ≤ cores.length :=
    kinds.length_eq ▸ (List.dedup_sublist names).length_le
  refine Costs.imp (((coreTypes_again inner h le deep).also distinct).bind fun types =>
    .pure ((names.dedup.map (kindLoad budget.limit node)).sum + 1) ?_) ?_ (Nat.le_refl _)
    fun _ _ _ _ hp => hp
  · rintro later still k ⟨⟨settled, paid, part, fit, each⟩, distinct⟩
    -- What was not paid for is one type for each kind.
    have unique (name : String) (type type' : TypeExpr)
        (ht : type ∈ types ∧ MadeOfKind budget.limit (typed later) home name type)
        (ht' : type' ∈ types ∧ MadeOfKind budget.limit (typed later) home name type') :
        type = type' := by
      obtain ⟨-, core, hc, ht, -⟩ := ht
      obtain ⟨-, core', hc', ht', -⟩ := ht'
      cases hc.symm.trans hc'
      exact CoreTyped.unique (once later) ht ht'
    have bounded (name : String) (type : TypeExpr)
        (ht : type ∈ types ∧ MadeOfKind budget.limit (typed later) home name type) :
        type.Fits (kindLoad budget.limit node name) := by
      obtain ⟨-, core, hc, -, fits⟩ := ht
      exact coreLoad_eq budget.limit hc ▸ fits
    obtain ⟨among, fit', only, all⟩ := exists_among names.dedup unique bounded
    refine ⟨?_, fun calm => ⟨types, settled (by simpa using calm), rfl⟩⟩
    refine fits_unionOf_of_subset (fun type hm => (distinct type hm).2)
      (fun type hm => (distinct type hm).1) (fun type hm => List.mem_append.2 ?_) ?_
      (FitAll.append fit fit')
    · refine (each type hm).imp_right fun ⟨core, hc, typed, fits⟩ => ?_
      obtain ⟨name, hn, named⟩ := exists_left_of_forall₂ kinds hc
      exact all name (List.mem_dedup.2 hn) type ⟨hm, core, named, typed, fits⟩
    · refine List.append_subset.2 ⟨part, fun type hm => ?_⟩
      obtain ⟨name, ht, -⟩ := only type hm
      exact ht
  · rw [Nat.zero_add]
    exact sum_kindLoad_le_baseLoad shorter (List.nodup_iff_count_le_one.1 apart _)
      (List.nodup_iff_count_le_one.1 apart _)

end

/-! ## Schemas -/

section
variable {budget : Budget} {path : List Pointer} {index : Index} {node : Json} {home : Pointer}
  {typeInner : TypeInner node} {typed : State → InnerTyped node}

/-- Types of kinds equal themselves and are no unions. -/
theorem coreTypes_distinct (finite : index.document.root.Finite)
    (inner : ∀ (i : Inner node) p, index.get? p = some i.node →
      Yields index path (typeInner i p) fun state type => NodeTyped index state i.node p type)
    {cores : List (Core (Inner node))} (h : ∀ core ∈ cores, CoreStands index home core)
    {state after : State} {types : List TypeExpr}
    (run : (coreTypes typeInner home cores).run.run state = (.ok types, after))
    (equal : ∀ entry ∈ after.expanded, EqualsItself entry.2) :
    ∀ type ∈ types, EqualsItself type ∧ type.isUnion = false := by
  have made : List.Forall₂ (CoreTyped (fun (i : Inner node) => NodeTyped index after i.node) home)
      cores types := by
    rcases (coreTypes_yields inner h state).cases with ⟨_, _, he, -, made⟩ | ⟨_, _, he, -⟩
    · rw [run] at he
      cases he
      exact made _ .refl
    · rw [run] at he
      cases he
  have preserved : Preserved index after EqualsItself := equalsItself_preserved finite
  intro type hm
  obtain ⟨core, hc, ht⟩ := exists_left_of_forall₂ made hm
  refine ⟨ht.preserved preserved (fun i p t hi ht => ?_) (h core hc), ?_⟩
  · exact ht.preserved preserved equal i.node p t hi
  · cases core with
    | scalar kind => cases kind <;> exact ht ▸ rfl
    | array items =>
      cases items with
      | absent => exact ht ▸ rfl
      | single i =>
        obtain ⟨t, rfl, -⟩ := ht
        rfl
      | tuple inners =>
        obtain ⟨ts, -, rfl⟩ := ht
        rfl
    | object shape =>
      obtain ⟨ts, additional, -, -, rfl⟩ := ht
      rfl

theorem size_taggedType_le (property : String) (mapping : Option (List (String × Json)))
    (schema : Json) (type : TypeExpr) :
    (taggedType property mapping schema type).size ≤
        type.size + (if schema.isReference then 3 else 0) ∧
      (taggedType property mapping schema type).widening = type.widening := by
  unfold taggedType
  split
  · rename_i tag found
    have isReference : schema.isReference = true := by
      obtain ⟨reference, hr, -⟩ := Option.bind_eq_some_iff.1 found
      simp [Json.isReference, hr]
    constructor
    · simp only [size, sizes, memberSizes, Member.plain, memberSize, isReference, if_true]
      omega
    · simp [widening, wideningOfAll, wideningOfProperties, wideningOfValues, Member.plain,
        propertyWidening, valueWidening, widens, Member.isKnownIndex]
  · exact ⟨Nat.le_add_right _ _, rfl⟩

theorem fitAll_alternativesOf {inners : List (Inner node)} {types : List TypeExpr} {k : Nat}
    (h : FitAll types k) (all : types.length = inners.length) :
    FitAll (alternativesOf node inners types) (k + tagsLoad inners) := by
  unfold alternativesOf
  split
  · exact h.mono (Nat.le_add_right _ _)
  · rename_i property mapping _
    have both : sizes (List.zipWith (fun (inner : Inner node) type =>
          taggedType property mapping inner.node type) inners types) ≤ sizes types + tagsLoad inners ∧
        wideningOfAll (List.zipWith (fun (inner : Inner node) type =>
          taggedType property mapping inner.node type) inners types) = wideningOfAll types := by
      clear h
      induction inners generalizing types with
      | nil =>
        rw [List.length_eq_zero_iff.1 all]
        exact ⟨Nat.zero_le _, rfl⟩
      | cons inner rest ih =>
        obtain ⟨type, types, rfl⟩ := List.exists_cons_of_length_eq_add_one all
        obtain ⟨smaller, levels⟩ := ih (by simpa using all)
        obtain ⟨first, level⟩ := size_taggedType_le property mapping inner.node type
        have tags : tagsLoad (inner :: rest) =
            (if inner.node.isReference then 3 else 0) + tagsLoad rest := by
          simp only [tagsLoad, List.map_cons, List.sum_cons]
        rw [List.zipWith_cons_cons, sizes, sizes, wideningOfAll, wideningOfAll, level, levels, tags]
        exact ⟨by omega, rfl⟩
    exact le_pow_mul_add h both.1 both.2.ge

/-- What the parts of a schema need to know of it and of the schemas inside it. -/
structure Allowed (budget : Budget) (path : List Pointer) (index : Index) (node : Json) (home : Pointer)
    (typeInner : TypeInner node) (typed : State → InnerTyped node) : Prop where
  inner : ∀ (i : Inner node) p, index.get? p = some i.node → home.Below p →
    Makes budget path node.repeatsInside (typeInner i p) (i.node.load budget.limit) Fits
      fun later type => typed later i p type
  once : ∀ later i p type type', typed later i p type → typed later i p type' → type = type'
  distinct : ∀ cores, (∀ core ∈ cores, CoreStands index home core) → ∀ state types after,
    (coreTypes typeInner home cores).run.run state = (.ok types, after) →
      after.Within budget.limit → ∀ type ∈ types, EqualsItself type ∧ type.isUnion = false
  weight : node.weight budget.limit ≤ budget.charge
  repeats : node.repeats ≤ budget.levels

namespace Allowed

variable (allowed : Allowed budget path index node home typeInner typed)
include allowed

theorem baseType {base : Base (Inner node)} (hb : base? node = .ok (some base))
    (h : BaseStands index home base) :
    Makes budget path node.repeats (baseType typeInner home base) (baseLoad budget.limit base) Fits
      fun later type => BaseTyped (typed later) home base type := by
  rcases base_cases hb with ⟨name, core, hc, rfl⟩ | ⟨names, cores, written, kinds, rfl⟩
  · exact Makes.mono (coreType_makes allowed.inner h) (Nat.le_refl _) node.repeatsInside_le
  · have listed : node.listedKinds = names := by
      simp only [listedKinds, written, Option.bind_some, array?, Option.getD_some, List.filterMap_map]
      exact List.filterMap_some
    have deep := node.repeats_eq
    cases again : node.repeatsKind with
    | false =>
      simp only [repeatsKind, listed, Bool.or_eq_false_iff, decide_eq_false_iff_not, Nat.not_lt] at again
      exact Makes.mono (several_makes allowed.inner kinds h again.1 again.2) (Nat.le_refl _)
        node.repeatsInside_le
    | true =>
      simp only [again, if_true] at deep
      have room := allowed.repeats
      have heavy : ∀ core ∈ cores, coreLoad budget.limit core ≤ budget.charge := by
        intro core hm
        obtain ⟨name, -, hc⟩ := exists_left_of_forall₂ kinds hm
        have := coreLoad_le budget.limit hc
        have := keywords_le_weight budget.limit node
        have := allowed.weight
        omega
      rw [deep]
      exact several_again allowed.inner kinds h heavy (by omega) allowed.once
        (allowed.distinct cores h)

/-! ### Composition -/

theorem typesUnder {keyword : String} {inners : List (Inner node)}
    (h : ListStands index (home.child keyword) inners) :
    Makes budget path node.repeats (typesOfList typeInner (home.child keyword) 0 inners)
      (innersLoads budget.limit inners)
      (fun types k => FitAll types k ∧ types.length = inners.length)
      fun later types => ListTyped (typed later) (home.child keyword) 0 inners types :=
  Makes.mono (typesOfStanding_makes allowed.inner (home.below_child _) h) (Nat.le_refl _)
    node.repeatsInside_le

theorem baseUnder {base : Option (Base (Inner node))} (hb : base? node = .ok base)
    (h : ∀ b, base = some b → BaseStands index home b) :
    Makes budget path node.repeats (baseUnder typeInner home base) (base.elim 0 (baseLoad budget.limit))
      FitAll fun later types => BaseUnderTyped (typed later) home base types := by
  cases base with
  | none => exact .pure 0 fitAll_nil fun _ => rfl
  | some base =>
    refine Makes.mono ((allowed.baseType hb (h base rfl)).bind fun type => .pure 0 ?_ ?_)
      (Nat.le_refl _) (Nat.le_refl _)
    · exact fun k fits => fitAll_singleton.2 fits
    · exact fun _ ht => ⟨type, ht, rfl⟩

theorem allUnder {inners : Option (List (Inner node))}
    (h : ∀ is, inners = some is → ListStands index (home.child "allOf") is) :
    Makes budget path node.repeats (allUnder typeInner home inners) (listLoad budget.limit inners)
      FitAll fun later types => AllUnderTyped (typed later) home inners types := by
  cases inners with
  | none => exact .pure 0 fitAll_nil fun _ => rfl
  | some inners =>
    have lighter := innersLoads_le budget.limit inners
    refine Makes.mono ((allowed.typesUnder (h inners rfl)).bind fun types => .pure 1 ?_ ?_)
      (by rw [listLoad]; omega) (Nat.le_refl _)
    · exact fun k ofTypes => fitAll_singleton.2 (fits_intersectionOf ofTypes.1)
    · exact fun _ ht => ⟨types, ht, rfl⟩

theorem choiceUnder {keyword : String} {inners : Option (List (Inner node))}
    (h : ∀ is, inners = some is → ListStands index (home.child keyword) is) :
    Makes budget path node.repeats (choiceUnder typeInner home keyword inners)
      (listLoad budget.limit inners) FitAll
      fun later types => ChoiceUnderTyped (typed later) home keyword inners types := by
  cases inners with
  | none => exact .pure 0 fitAll_nil fun _ => rfl
  | some inners =>
    have tagged := innersLoads_add_tagsLoad budget.limit inners
    rw [choiceUnder_some]
    refine Makes.mono ((allowed.typesUnder (h inners rfl)).bind fun types =>
      .pure (tagsLoad inners + 1) ?_ ?_) (by rw [listLoad]; omega) (Nat.le_refl _)
    · rintro k ⟨fits, length⟩
      exact fitAll_singleton.2 (fits_unionOf (fitAll_alternativesOf fits length))
    · exact fun _ hl => ⟨types, hl, rfl⟩

omit allowed in
theorem notUnder (schema : Option Json) :
    Makes budget path node.repeats (notUnder home schema) (notLoad schema) FitAll
      fun later types => NotUnderTyped (later.settled path) home schema types := by
  cases schema with
  | none => exact .pure 0 fitAll_nil fun _ => rfl
  | some schema =>
    refine Makes.mono ((unsupported_makes _).bind fun type => .pure 0 ?_ ?_) (Nat.le_refl 1)
      (Nat.le_refl _)
    · exact fun k fits => fitAll_singleton.2 fits
    · exact fun _ hn => ⟨type, hn, rfl⟩

theorem compositeType {composition : Composition (Inner node)} {base : Option (Base (Inner node))}
    (hb : base? node = .ok base) (hc : CompositionStands index home composition)
    (h : ∀ b, base = some b → BaseStands index home b) :
    Makes budget path node.repeats (compositeType typeInner composition base home)
      (1 + compositionLoad budget.limit composition + base.elim 0 (baseLoad budget.limit))
      (fun result k => result.1.Fits k)
      fun later result =>
        CompositeTyped (typed later) home (later.settled path) composition base result.1
          result.2 := by
  refine Makes.mono ((allowed.baseUnder hb h).bind fun bs => (allowed.allUnder hc.allOf).bind fun as =>
    (allowed.choiceUnder hc.oneOf).bind fun os => (allowed.choiceUnder hc.anyOf).bind fun ys =>
      (notUnder composition.not).bind fun ns => .pure 1 ?_ ?_)
    (by rw [compositionLoad]; omega) (Nat.le_refl _)
  · intro kn ofNot ky ofAny ko ofOne ka ofAll kb ofBase
    have all := (((ofBase.append ofAll).append ofOne).append ofAny).append ofNot
    exact (fits_intersectionOf all).mono (by omega)
  · exact fun _ hn hy ho ha hb => ⟨bs, as, os, ys, ns, hb, ha, ho, hy, hn, rfl, rfl⟩

end Allowed

theorem withNull_makes {level : Nat} (node : Json) (place : Pointer) (bare : TypeExpr)
    (choiceHasNull : Bool) :
    Makes budget path level (withNull node place bare choiceHasNull) (nullLoad node)
      (fun type m => ∀ k, bare.Fits k → type.Fits (k + m))
      fun later type => NullTyped (later.settled path) node place bare choiceHasNull type := by
  unfold withNull NullTyped nullLoad
  cases isNullable node
  · exact .pure 0 (fun _ fits => fits) fun _ => rfl
  · cases choiceHasNull
    · refine .pure 2 (fun k fits => ?_) fun _ => rfl
      exact fits_unionOf (FitAll.cons fits (fitAll_singleton.2 (fits_of_size_le (Nat.le_refl 1))))
    · refine Costs.imp (ambiguous_makes _) (Nat.le_succ 1) (Nat.le_refl _) ?_
      rintro later calm type m ⟨fits, noted⟩
      exact ⟨fun k _ => fits.mono (Nat.le_add_left _ _), noted⟩

section
variable {follow : String → Pointer → TypingM TypeExpr}
  (follows : ∀ reference place node, index.get? place = some node →
    reference? node = some reference →
    Makes budget path 0 (follow reference place) budget.limit Fits
      fun later type => ReferenceTyped (later.settled path) index reference type)
include follows

theorem shapeType_makes (allowed : Allowed budget path index node home typeInner typed)
    (h : index.get? home = some node) :
    Makes budget path node.repeats (shapeType typeInner follow home (shape node))
      (shapeLoad budget.limit (shape node)) (fun result k => result.1.Fits k)
      fun later result =>
        ShapeTyped (typed later) home index (later.settled path) (shape node) result.1 result.2 := by
  have stands := shape_stands h
  have read := shape_read node
  generalize shape node = shape at stands read ⊢
  have small {type : TypeExpr} (hs : type.size = 1) : type.Fits 1 := fits_of_size_le hs.le
  cases shape with
  | any => exact .pure 1 (small rfl) fun _ => ⟨rfl, rfl⟩
  | nothing => exact .pure 1 (small rfl) fun _ => ⟨rfl, rfl⟩
  | reference reference =>
    exact ((follows reference home node h stands).unchosen).mono (Nat.le_refl _) (Nat.zero_le _)
  | enumeration values =>
    refine Makes.mono ((literalTypes_makes values).bind fun types => .pure 1 ?_ ?_)
      (Nat.le_of_eq (Nat.add_comm _ _)) (Nat.le_refl _)
    · exact fun k fits => fits_unionOf fits
    · exact fun _ hl => ⟨⟨types, hl, rfl⟩, rfl⟩
  | enumerationWithComposition => exact (ambiguous_makes _).unchosen
  | constant value => exact (literalType_makes value).unchosen
  | composite composition base => exact allowed.compositeType read.2.2 stands.1 stands.2
  | structural base => exact (allowed.baseType read stands).unchosen
  | unsupported reason => exact (unsupported_makes _).unchosen

/-- Typing a schema of the document, when following references costs what it should. -/
theorem typeOfNode_makes (covers : budget.Covers index)
    (yields : ∀ reference place node, index.get? place = some node →
      reference? node = some reference →
      Yields index path (follow reference place) fun state type =>
        ReferenceTyped state index reference type)
    (node : Json) (place : Pointer) (h : index.get? place = some node) :
    Makes budget path node.repeats (typeOfNode follow node place) (node.load budget.limit) Fits
      fun later type => NodeTyped index (later.settled path) node place type := by
  have innerYields (i : Inner node) (p : Pointer) (hi : index.get? p = some i.node) :
      Yields index path (typeOfNode follow i.node p) fun state type =>
        NodeTyped index state i.node p type := typeOfNode_yields yields i.node p hi
  have allowed : Allowed budget path index node place (fun i => typeOfNode follow i.node)
      fun later i => NodeTyped index (later.settled path) i.node := by
    refine ⟨fun i p hi below => ?_, fun later i => NodeTyped.unique i.node, ?_, ?_, ?_⟩
    · exact (typeOfNode_makes covers yields i.node p hi).mono (Nat.le_refl _)
        (Index.repeats_le_of_below h hi below)
    · intro cores stand state types after run within
      exact coreTypes_distinct covers.finite innerYields stand run within.equal
    · exact Nat.le_trans (Json.weight_walk _ h) covers.charge
    · exact Nat.le_trans (Index.repeats_le_root h) covers.levels
  rw [typeOfNode]
  refine Makes.mono ((shapeType_makes follows allowed h).bind fun result =>
    Costs.imp (withNull_makes node place result.1 result.2) (Nat.le_refl _) (Nat.le_refl _) ?_)
    (shapeLoad_le _ node) (Nat.le_refl _)
  rintro later calm type m ⟨fits, typed⟩
  exact ⟨fits, fun calm hs => nodeTyped_iff.2 ⟨result.1, result.2, hs, typed calm⟩⟩
termination_by sizeOf node
decreasing_by exact i.smaller

end

end

/-! ## References -/

section
variable {budget : Budget} {path : List Pointer} {index : Index} {state : State}

/-- The type for a reference to a place, as references see it later. -/
abbrev ofTarget (path : List Pointer) (target : Pointer) (later : State) (calm : Bool)
    (type : TypeExpr) (k : Nat) : Prop :=
  type.Fits k ∧ (calm = true → TargetTyped (later.settled path) target type)

theorem refToPromoted_costsFrom (target : index.Target) (positive : 0 < budget.limit)
    (unnamed : state.names.get? target.pointer = none)
    (unrepeated : state.repeated? path target.pointer = none) :
    CostsFrom budget path 0 state (do return .ref (← promote target.pointer)) budget.limit
      (ofTarget path target.pointer) := by
  have run := run_promote target.pointer state
  rw [NameTable.assign_of_none _ unnamed] at run
  intro type after he
  rw [run_bind_of_ok run] at he
  cases he
  have step : Step index path state _ := .promote target unnamed
  have grows := step.grows
  refine ⟨steady_promoted grows unrepeated, fun _ => ⟨1, true, fun _ => rfl, ?_, ?_⟩⟩
  · simp only [Budget.paid, if_true]
    omega
  · intro later steady
    refine ⟨fits_of_size_le (Nat.le_refl 1), fun _ => .inl ⟨_, ?_, rfl⟩⟩
    refine NameTable.get?_mono steady.grows.names ?_
    simp [NameTable.extended, NameTable.get?_append, unnamed]

/-- Recording what an expansion gave, which pays for it. -/
theorem expansion_costsFrom {target : index.Target} {action : TypingM TypeExpr} {level cost : Nat}
    (new : state.expanded.lookup target.pointer = none) (le : cost ≤ budget.charge)
    (h : CostsFrom budget (path ++ [target.pointer]) level state action cost fun _ _ type k => type.Fits k) :
    CostsFrom budget path 0 state
      (do let type ← action; recordExpansion target.pointer type; return type) budget.limit
      (ofTarget path target.pointer) := by
  intro type after he
  rcases hr : action.run.run state with ⟨_ | made, between⟩
  · rw [run_bind_of_error hr] at he
    cases he
  · rw [run_bind_of_ok hr] at he
    cases he
    obtain ⟨steady, paid⟩ := h type between hr
    have grows := between.grows_record target.pointer type
    refine ⟨(steady.narrow new).trans (steady_of_names grows rfl), fun within => ?_⟩
    obtain ⟨k, calm, same, paid, fits⟩ := paid (within.earlier grows)
    refine ⟨k, false, nofun, ?_, fun later steady' => ⟨fits between (.refl _ _), nofun⟩⟩
    have one : budget.paid { between with expanded := between.expanded ++ [(target.pointer, type)] } =
        budget.paid between + (budget.left 0 + budget.charge) := by
      simp only [Budget.paid, Budget.left, List.length_append, List.length_singleton, Nat.sub_zero]
      ring
    rw [one]
    simp only [Bool.false_eq_true, if_false]
    omega

theorem typeOfReference_makes (covers : budget.Covers index) (path : List Pointer)
    (reference : String) (place : Pointer) :
    Makes budget path 0 (typeOfReference index path reference place) budget.limit Fits
      fun later type => ReferenceTyped (later.settled path) index reference type := by
  intro state
  rw [typeOfReference]
  cases he : index.resolve reference place with
  | error error =>
    intro type after failed
    cases failed
  | ok target =>
    suffices CostsFrom budget path 0 state _ budget.limit (ofTarget path target.pointer) from
      this.imp (Nat.le_refl _) (Nat.le_refl _) fun _ _ _ _ h =>
        ⟨h.1, fun calm => ⟨target, Index.locate?_of_resolve he, h.2 calm⟩⟩
    change CostsFrom budget path 0 state (MonadState.get >>= _) _ _
    refine CostsFrom.get ?_
    cases hn : state.names.get? target.pointer with
    | some name =>
      refine .pure _ fun _ later steady =>
        ⟨fits_of_size_le covers.positive, fun _ => .inl ⟨name, ?_, rfl⟩⟩
      exact NameTable.get?_mono steady.grows.names hn
    | none =>
      dsimp only
      split
      · rename_i onPath
        have onPath : target.pointer ∈ path := by simpa [Index.Target.isCycle] using onPath
        refine refToPromoted_costsFrom target covers.positive hn ?_
        simp [State.repeated?, onPath]
      · rename_i outside
        have outside : target.pointer ∉ path := by simpa [Index.Target.isCycle] using outside
        cases hx : state.expanded.lookup target.pointer with
        | some type =>
          dsimp only
          split
          · rename_i short
            have repeated := repeated?_eq_some.2 ⟨hn, outside, hx, short⟩
            refine .pure _ fun within later steady => ⟨?_, fun _ => .inr ?_⟩
            · exact fits_of_size_le (within.short _ (mem_of_lookup hx) short)
            · exact mem_settled.2 (steady.repeated _ _ repeated)
          · rename_i long
            refine refToPromoted_costsFrom target covers.positive hn ?_
            simp [State.repeated?, hx, long]
        | none =>
          have smaller := Index.unvisited_lt target.found outside
          have made := typeOfNode_makes
            (fun r p _ _ _ => typeOfReference_makes covers (path ++ [target.pointer]) r p) covers
            (typeOfReference_yields index (path ++ [target.pointer])) target.node target.pointer
            target.found
          have light := Nat.le_trans (Index.load_le_root _ target.found) covers.charge
          exact expansion_costsFrom hx light
            ((made state).imp (Nat.le_refl _) (Nat.le_refl _) fun _ _ _ _ hp => hp.1)
termination_by index.unvisited path

/-- The type of a schema fits in its load and what the expansions made for it paid. -/
theorem typeAt_makes (covers : budget.Covers index) (path : List Pointer) {node : Json}
    {place : Pointer} (h : index.get? place = some node) :
    Makes budget path node.repeats (typeAt index path node place) (node.load budget.limit) Fits
      fun later type => NodeTyped index (later.settled path) node place type :=
  typeOfNode_makes (fun r p _ _ _ => typeOfReference_makes covers path r p) covers
    (typeOfReference_yields index path) node place h

end

end ApiTypes.Typing
