import ApiTypes.Files.Tree

/-!
# What a change to a tree of files leaves alone

An entry is put only where no directory stands, and every path is followed through directories. So
where a path led before a change it leads after it (`site_put`), and what is written can be read
back under the same path (`read_write`).
-/

namespace ApiTypes.FileTree

variable {tree after : FileTree} {base here there location : Location} {path text : String}

theorem requireDirectory_eq_ok :
    tree.requireDirectory here = .ok () ↔ tree.get? here = some .directory := by
  unfold requireDirectory
  split <;> simp_all

theorem step_eq_ok {name : String} (h : tree.step here name = .ok there) :
    tree.get? here = some .directory ∧ ¬maxName < name.utf8ByteSize ∧
      there = if name == "" || name == "." then here
        else if name == ".." then here.dropLast else here ++ [name] := by
  unfold step at h
  cases required : tree.requireDirectory here with
  | error error =>
    rw [required] at h
    cases h
  | ok =>
    rw [required] at h
    have standing := requireDirectory_eq_ok.1 required
    by_cases long : maxName < name.utf8ByteSize
    · simp only [gt_iff_lt, if_pos long] at h
      cases h
    · simp only [gt_iff_lt, if_neg long] at h
      cases h
      exact ⟨standing, long, rfl⟩

section
variable (vacant : tree.get? location ≠ some .directory) (entry : Entry)
include vacant

theorem step_put {name : String} (h : tree.step here name = .ok there) :
    (tree.put location entry).step here name = .ok there := by
  obtain ⟨standing, short, rfl⟩ := step_eq_ok h
  have apart : here ≠ location := by
    rintro rfl
    exact vacant standing
  have standing' : (tree.put location entry).get? here = some .directory := by
    rw [get?_put_of_ne tree entry apart]
    exact standing
  unfold step
  rw [requireDirectory_eq_ok.2 standing']
  simp only [gt_iff_lt, if_neg short]
  rfl

theorem walk_put {names : List String} (h : tree.walk here names = .ok there) :
    (tree.put location entry).walk here names = .ok there := by
  induction names generalizing here with
  | nil => exact h
  | cons name rest ih =>
    rw [walk, List.foldlM_cons] at h ⊢
    cases first : tree.step here name with
    | error error =>
      rw [first] at h
      cases h
    | ok next =>
      rw [first] at h
      rw [step_put vacant entry first]
      exact ih h

end

/-- A path leads to the place of a name of its own: what is before the name is followed from
directory to directory, and the name from the last of them. -/
theorem site_eq_some {place : Location} {ended : Bool} :
    tree.site base path = .ok (some place, ended) ↔
      ∃ start names last above directory, namesOf base path = .ok (start, names) ∧
        names.reverse.dropWhile (· == "") = last :: above ∧
        tree.walk start above.reverse = .ok directory ∧ tree.step directory last = .ok place ∧
        (last != "." && last != "..") = true ∧ ended = (names.getLast? == some "") := by
  unfold site
  constructor
  · intro h
    cases named : namesOf base path with
    | error error =>
      rw [named] at h
      cases h
    | ok result =>
      obtain ⟨start, names⟩ := result
      rw [named] at h
      simp only [bind, Except.bind] at h
      split at h
      · cases h
      · rename_i last above trailing
        cases followed : tree.walk start above.reverse with
        | error error =>
          simp only [followed] at h
          cases h
        | ok directory =>
          simp only [followed] at h
          cases stepped : tree.step directory last with
          | error error =>
            simp only [stepped] at h
            cases h
          | ok found =>
            simp only [stepped] at h
            by_cases own : (last != "." && last != "..") = true
            · rw [if_pos own] at h
              cases h
              exact ⟨start, names, last, above, directory, rfl, trailing, followed, stepped, own, rfl⟩
            · rw [if_neg own] at h
              cases h
  · rintro ⟨start, names, last, above, directory, named, trailing, followed, stepped, own, rfl⟩
    simp only [named, bind, Except.bind, trailing, followed, stepped, own, if_true]
    rfl

theorem site_put {place : Location} {ended : Bool} (vacant : tree.get? location ≠ some .directory)
    (entry : Entry) (h : tree.site base path = .ok (some place, ended)) :
    (tree.put location entry).site base path = .ok (some place, ended) := by
  obtain ⟨start, names, last, above, directory, named, trailing, followed, stepped, own, rfl⟩ :=
    site_eq_some.1 h
  exact site_eq_some.2 ⟨start, names, last, above, directory, named, trailing,
    walk_put vacant entry followed, step_put vacant entry stepped, own, rfl⟩

/-- A file is written at the place that its path leads to, where no directory stands. -/
theorem write_eq_ok (h : tree.write base path text = .ok after) :
    ∃ place, tree.site base path = .ok (some place, false) ∧ tree.get? place ≠ some .directory ∧
      after = tree.put place (.file text) := by
  unfold write at h
  cases led : tree.site base path with
  | error error =>
    rw [led] at h
    cases h
  | ok result =>
    rw [led] at h
    simp only [bind, Except.bind] at h
    split at h
    · rename_i place
      split at h
      · cases h
      · rename_i vacant
        cases h
        exact ⟨place, rfl, vacant, rfl⟩
    · cases h

/-- A directory is made at the place that its path leads to, where nothing stands. -/
theorem makeDirectory_eq_ok (h : tree.makeDirectory base path = .ok after) :
    ∃ place ended, tree.site base path = .ok (some place, ended) ∧ tree.get? place = none ∧
      after = tree.put place .directory := by
  unfold makeDirectory at h
  cases led : tree.site base path with
  | error error =>
    rw [led] at h
    cases h
  | ok result =>
    obtain ⟨place, ended⟩ := result
    rw [led] at h
    simp only [bind, Except.bind] at h
    cases place with
    | none => cases h
    | some place =>
      dsimp only at h
      split at h
      · cases h
      · rename_i empty
        cases h
        exact ⟨place, ended, rfl, by simpa using empty, rfl⟩

/-- What is written is read under the same path. -/
theorem read_write (h : tree.write base path text = .ok after) :
    after.read base path = .ok text := by
  obtain ⟨place, led, vacant, rfl⟩ := write_eq_ok h
  obtain ⟨start, names, last, above, directory, named, trailing, followed, stepped, own, plain⟩ :=
    site_eq_some.1 led
  have whole : names = above.reverse ++ [last] := by
    -- no empty name is at the end
    rw [List.getLast?_eq_head?_reverse] at plain
    have reversed : names.reverse = last :: above := by
      cases turned : names.reverse with
      | nil =>
        rw [turned] at trailing
        cases trailing
      | cons name rest =>
        rw [turned] at plain trailing
        have named : name ≠ "" := by simpa using plain
        rwa [List.dropWhile_cons_of_neg (by simpa using named)] at trailing
    simpa using congrArg List.reverse reversed
  have reached : (tree.put place (.file text)).walk start names = .ok place := by
    apply walk_put vacant
    rw [whole, walk, List.foldlM_append]
    rw [walk] at followed
    rw [followed]
    exact (bind_pure (tree.step directory last)).trans stepped
  have inside : place ≠ [] := by
    rintro rfl
    exact vacant rfl
  unfold read find
  simp only [named, bind, Except.bind, reached, get?_put_self tree _ inside]
  rfl

end ApiTypes.FileTree
