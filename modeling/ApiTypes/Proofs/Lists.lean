import Mathlib.Data.List.Forall2

/-!
# Lists

Look-up in lists of entries with distinct keys, lists that are related element by element, and
lists made of a list for each element.
-/

namespace ApiTypes

section
variable {κ α : Type} [BEq κ] [LawfulBEq κ] {entries : List (κ × α)} {key : κ} {value : α}

theorem mem_of_lookup (h : entries.lookup key = some value) : (key, value) ∈ entries := by
  obtain ⟨before, after, he, _⟩ := List.lookup_eq_some_iff.1 h
  simp [he]

theorem lookup_of_mem (hd : (entries.map (·.1)).Nodup) (h : (key, value) ∈ entries) :
    entries.lookup key = some value := by
  obtain ⟨before, after, rfl⟩ := List.append_of_mem h
  refine List.lookup_eq_some_iff.2 ⟨before, after, rfl, fun entry hm => ?_⟩
  simp only [List.map_append, List.map_cons] at hd
  have := (List.nodup_append.1 hd).2.2 entry.1 (List.mem_map_of_mem hm) key List.mem_cons_self
  simpa using this.symm

end

section
variable {α β : Type} {R : α → β → Prop}

theorem exists_right_of_forall₂ {as : List α} {bs : List β} (h : List.Forall₂ R as bs) {a : α}
    (hm : a ∈ as) : ∃ b ∈ bs, R a b := by
  induction h with
  | nil => cases hm
  | @cons a' b as bs first _ ih =>
    rcases List.mem_cons.1 hm with rfl | hm
    · exact ⟨b, List.mem_cons_self, first⟩
    · obtain ⟨b, hb, hr⟩ := ih hm
      exact ⟨b, List.mem_cons_of_mem _ hb, hr⟩

theorem exists_left_of_forall₂ {as : List α} {bs : List β} (h : List.Forall₂ R as bs) {b : β}
    (hm : b ∈ bs) : ∃ a ∈ as, R a b :=
  exists_right_of_forall₂ h.flip hm

theorem forall₂_imp_of_mem {S : α → β → Prop} {as : List α} {bs : List β} (h : List.Forall₂ R as bs)
    (hS : ∀ a ∈ as, ∀ b ∈ bs, R a b → S a b) : List.Forall₂ S as bs := by
  induction h with
  | nil => exact .nil
  | @cons a b as bs first _ ih =>
    refine .cons (hS a List.mem_cons_self b List.mem_cons_self first) (ih fun x hx y hy => ?_)
    exact hS x (List.mem_cons_of_mem _ hx) y (List.mem_cons_of_mem _ hy)

/-- Either both are there, and related, or none is. -/
theorem rel_cases {a : Option α} {b : Option β} (h : Option.Rel R a b) :
    a = none ∧ b = none ∨ ∃ x y, a = some x ∧ b = some y ∧ R x y := by
  cases h with
  | none => exact .inl ⟨rfl, rfl⟩
  | some related => exact .inr ⟨_, _, rfl, rfl, related⟩

theorem any_eq_of_forall₂ {p : α → Bool} {q : β → Bool} {as : List α} {bs : List β}
    (h : List.Forall₂ R as bs) (hpq : ∀ a b, R a b → q b = p a) : bs.any q = as.any p := by
  induction h with
  | nil => rfl
  | cons first _ ih => rw [List.any_cons, List.any_cons, hpq _ _ first, ih]

theorem isEmpty_eq_of_forall₂ {as : List α} {bs : List β} (h : List.Forall₂ R as bs) :
    bs.isEmpty = as.isEmpty := by
  cases h <;> rfl

theorem find?_rel {p : α → Bool} {q : β → Bool} {as : List α} {bs : List β}
    (h : List.Forall₂ R as bs) (hpq : ∀ a b, R a b → q b = p a) :
    Option.Rel R (as.find? p) (bs.find? q) := by
  induction h with
  | nil => exact .none
  | @cons a b as bs first _ ih =>
    rw [List.find?_cons, List.find?_cons, hpq a b first]
    split
    · exact .some first
    · exact ih

theorem head?_rel {as : List α} {bs : List β} (h : List.Forall₂ R as bs) :
    Option.Rel R as.head? bs.head? := by
  cases h with
  | nil => exact .none
  | cons first _ => exact .some first

theorem getLast?_rel {as : List α} {bs : List β} (h : List.Forall₂ R as bs) :
    Option.Rel R as.getLast? bs.getLast? := by
  rw [List.getLast?_eq_head?_reverse, List.getLast?_eq_head?_reverse]
  exact head?_rel (List.forall₂_reverse_iff.2 h)

theorem or_rel {a a' : Option α} {b b' : Option β} (h : Option.Rel R a b)
    (h' : Option.Rel R a' b') : Option.Rel R (a.or a') (b.or b') := by
  cases h with
  | none => exact h'
  | some related => exact .some related

theorem bind_rel {γ δ : Type} {S : γ → δ → Prop} {a : Option α} {b : Option β}
    {f : α → Option γ} {g : β → Option δ} (h : Option.Rel R a b)
    (hfg : ∀ x y, R x y → Option.Rel S (f x) (g y)) : Option.Rel S (a.bind f) (b.bind g) := by
  cases h with
  | none => exact .none
  | some related => exact hfg _ _ related

/-- What is related to the entries of one list is related entry by entry. -/
theorem forall₂_of_common_left {γ : Type} {S : α → γ → Prop} {T : β → γ → Prop} {as : List α}
    {bs : List β} {cs : List γ} (h : List.Forall₂ R as bs) (h' : List.Forall₂ S as cs)
    (hT : ∀ a ∈ as, ∀ b c, R a b → S a c → T b c) : List.Forall₂ T bs cs := by
  induction h generalizing cs with
  | nil =>
    cases h'
    exact .nil
  | @cons a b as bs first _ ih =>
    cases h' with
    | cons first' rest' =>
      refine .cons (hT a List.mem_cons_self _ _ first first') (ih rest' ?_)
      intro a hm
      exact hT a (List.mem_cons_of_mem _ hm)

theorem exists_of_mem_zipWith {γ : Type} {f : α → β → γ} {as : List α} {bs : List β}
    (h : List.Forall₂ R as bs) {c : γ} (hm : c ∈ List.zipWith f as bs) :
    ∃ a ∈ as, ∃ b ∈ bs, R a b ∧ c = f a b := by
  induction h with
  | nil => cases hm
  | @cons a b as bs first _ ih =>
    rcases List.mem_cons.1 hm with rfl | hm
    · exact ⟨a, List.mem_cons_self, b, List.mem_cons_self, first, rfl⟩
    · obtain ⟨a', ha, b', hb, rest⟩ := ih hm
      exact ⟨a', List.mem_cons_of_mem _ ha, b', List.mem_cons_of_mem _ hb, rest⟩

theorem exists_mem_zipWith {γ : Type} (f : α → β → γ) {as : List α} {bs : List β}
    (h : List.Forall₂ R as bs) {a : α} (hm : a ∈ as) :
    ∃ b ∈ bs, R a b ∧ f a b ∈ List.zipWith f as bs := by
  induction h with
  | nil => cases hm
  | @cons a' b as bs first _ ih =>
    rcases List.mem_cons.1 hm with rfl | hm
    · exact ⟨b, List.mem_cons_self, first, List.mem_cons_self⟩
    · obtain ⟨b, hb, hr, hz⟩ := ih hm
      exact ⟨b, List.mem_cons_of_mem _ hb, hr, List.mem_cons_of_mem _ hz⟩

theorem forall₂_zipWith {γ δ : Type} {S : δ → δ → Prop} {f : γ → α → δ} {g : γ → β → δ}
    (hS : ∀ c a b, R a b → S (f c a) (g c b)) {as : List α} {bs : List β}
    (h : List.Forall₂ R as bs) (cs : List γ) :
    List.Forall₂ S (List.zipWith f cs as) (List.zipWith g cs bs) := by
  induction h generalizing cs with
  | nil => simp
  | @cons a b as bs first _ ih =>
    cases cs with
    | nil => exact .nil
    | cons c cs => exact .cons (hS c a b first) (ih cs)

theorem zipWith_eq_of_forall₂ {γ δ : Type} {f : α → γ → δ} {g : β → γ → δ} {as : List α}
    {bs : List β} (h : List.Forall₂ R as bs) (hfg : ∀ a b, R a b → g b = f a) (cs : List γ) :
    List.zipWith g bs cs = List.zipWith f as cs := by
  induction h generalizing cs with
  | nil => simp
  | cons first _ ih =>
    cases cs with
    | nil => rfl
    | cons c cs => rw [List.zipWith_cons_cons, List.zipWith_cons_cons, hfg _ _ first, ih]

theorem map_eq_of_forall₂ {γ : Type} {f : α → γ} {g : β → γ} {as : List α} {bs : List β}
    (h : List.Forall₂ R as bs) (hfg : ∀ a b, R a b → g b = f a) : bs.map g = as.map f := by
  induction h with
  | nil => rfl
  | cons first _ ih => rw [List.map_cons, List.map_cons, hfg _ _ first, ih]

theorem forall₂_filterMap {f : α → Option β} {as : List α}
    (h : ∀ a ∈ as, ∀ b, f a = some b → R a b) :
    List.Forall₂ R (as.filter fun a => (f a).isSome) (as.filterMap f) := by
  induction as with
  | nil => exact .nil
  | cons a rest ih =>
    have later := ih fun x hm => h x (List.mem_cons_of_mem _ hm)
    cases hf : f a with
    | none => rwa [List.filterMap_cons_none hf, List.filter_cons_of_neg (by simp [hf])]
    | some b =>
      rw [List.filterMap_cons_some hf, List.filter_cons_of_pos (by simp [hf])]
      exact .cons (h a List.mem_cons_self b hf) later

end

section
variable {α β : Type} {f : α → List β} {as : List α}

theorem flatMap_ne_nil (some : as ≠ []) (each : ∀ a ∈ as, f a ≠ []) : as.flatMap f ≠ [] := by
  obtain ⟨a, hm⟩ := List.exists_mem_of_ne_nil as some
  exact fun none => each a hm (List.flatMap_eq_nil_iff.1 none a hm)

theorem length_le_length_flatMap (some : ∀ a ∈ as, 1 ≤ (f a).length) :
    as.length ≤ (as.flatMap f).length := by
  induction as with
  | nil => exact Nat.le_refl _
  | cons a rest ih =>
    have first := some a List.mem_cons_self
    have later := ih fun b hm => some b (List.mem_cons_of_mem _ hm)
    rw [List.flatMap_cons, List.length_append, List.length_cons]
    omega

/-- Where each part has one entry at least and there are no more entries than parts, each part has
one entry. -/
theorem length_eq_one_of_length_flatMap (some : ∀ a ∈ as, 1 ≤ (f a).length)
    (all : (as.flatMap f).length ≤ as.length) : ∀ a ∈ as, (f a).length = 1 := by
  induction as with
  | nil => simp
  | cons a rest ih =>
    have some_rest : ∀ b ∈ rest, 1 ≤ (f b).length := fun b hm => some b (List.mem_cons_of_mem _ hm)
    have first := some a List.mem_cons_self
    have later := length_le_length_flatMap some_rest
    rw [List.flatMap_cons, List.length_append, List.length_cons] at all
    intro b hm
    rcases List.mem_cons.1 hm with rfl | hm
    · omega
    · exact ih some_rest (by omega) b hm

end

/-- An element of a list that was extended by one is found earlier, or it is the last one. -/
theorem split_of_append_singleton {α : Type} {as before after : List α} {last a : α}
    (split : as ++ [last] = before ++ a :: after) :
    (∃ more, after = more ++ [last] ∧ as = before ++ a :: more) ∨
      after = [] ∧ a = last ∧ before = as := by
  rcases List.eq_nil_or_concat after with rfl | ⟨more, other, rfl⟩
  · obtain ⟨same, ends⟩ := List.append_inj' split rfl
    exact .inr ⟨rfl, (List.singleton_inj.1 ends).symm, same.symm⟩
  · rw [List.concat_eq_append] at split ⊢
    rw [← List.cons_append, ← List.append_assoc] at split
    obtain ⟨same, ends⟩ := List.append_inj' split rfl
    exact .inl ⟨more, by rw [List.singleton_inj.1 ends], same⟩

end ApiTypes
