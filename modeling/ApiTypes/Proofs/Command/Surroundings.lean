import ApiTypes.Command.Load
import ApiTypes.Command.Session
import ApiTypes.Proofs.Files.Tree

/-!
# Surroundings that do as they say

`Surroundings` is what a run of the command may count on, whatever it runs in: a question about
files is answered by the files there are, a file that is written holds its text, a directory is made
only where nothing stands, and nothing else ever changes a file. Reading, writing and making a
directory may fail at any time; of a file that could not be written nothing is said. That a line of
progress or a warning cannot be written is no answer that an operation gives: the program ends there,
and no run goes on from it.

* `Surroundings.makeEnclosed_makesOnly`: making a directory with all that enclose it makes nothing
  but directories where nothing stood, under these paths;
* `Session.surroundings`: a session is of this kind.
-/

namespace ApiTypes

/-- How the surroundings of a run look, in each of their states. -/
structure View (σ : Type) where
  /-- All files and directories. -/
  Files : Type
  /-- Where an entry may stand. -/
  Place : Type
  files : σ → Files
  /-- What reading the standard input would give. -/
  input : σ → Except FileError String
  /-- What was printed so far. -/
  output : σ → String
  entry? : Files → Place → Option Entry
  /-- Where a path leads, if it leads through directories to a name. -/
  place? : Files → String → Option Place
  isFile : Files → String → Bool
  isDirectory : Files → String → Bool
  read : Files → String → Except FileError String

namespace View

variable {σ : Type} (view : View σ)

/-- The action gives this answer, and files, input and output stay as they were. -/
def Answers {α : Type} (action : StateM σ α) (before : σ) (answer : α) : Prop :=
  ∃ after, action.run before = (answer, after) ∧ view.files after = view.files before ∧
    view.input after = view.input before ∧ view.output after = view.output before

/-- An entry is put at a place, where its path leads and no directory stood. All else stands as
before, and all paths lead where they led. -/
structure Put (path : String) (entry : Entry) (place : view.Place) (before after : view.Files) :
    Prop where
  leads : view.place? before path = some place
  vacant : view.entry? before place ≠ some .directory
  put : view.entry? after place = some entry
  others : ∀ other, other ≠ place → view.entry? after other = view.entry? before other
  paths : ∀ path place, view.place? before path = some place → view.place? after path = some place

/-- A directory is made under a path, where nothing stood. -/
def Made (path : String) (before after : view.Files) : Prop :=
  ∃ place, view.Put path .directory place before after ∧ view.entry? before place = none

/-- A file is written, and it can be read. -/
def Written (path text : String) (before after : view.Files) : Prop :=
  (∃ place, view.Put path (.file text) place before after) ∧ view.read after path = .ok text

end View

/-- Surroundings whose operations do what they say. -/
structure Surroundings (σ : Type) [Host (StateM σ)] extends View σ where
  isFile_run : ∀ path state,
    toView.Answers (Host.isFile path) state (toView.isFile (toView.files state) path)
  isDirectory_run : ∀ path state,
    toView.Answers (Host.isDirectory path) state (toView.isDirectory (toView.files state) path)
  readFile_run : ∀ path state,
    toView.Answers (Host.readFile path) state (toView.read (toView.files state) path)
  report_run : ∀ line state, toView.Answers (Host.report line) state ()
  /-- A line is printed whole: where it cannot be, there is no state to go on from. -/
  announce_run : ∀ line state, ∃ after, (Host.announce line : StateM σ _).run state = ((), after) ∧
    toView.files after = toView.files state ∧ toView.input after = toView.input state ∧
    toView.output after = toView.output state ++ line ++ "\n"
  milliseconds_run : ∀ state, ∃ time, toView.Answers Host.milliseconds state time
  /-- What is read of the input may be gone. -/
  readInput_run : ∀ state, ∃ after, (Host.readInput : StateM σ _).run state = (toView.input state, after) ∧
    toView.files after = toView.files state ∧ toView.output after = toView.output state
  writeFile_run : ∀ path text state, ∃ result after,
    (Host.writeFile path text : StateM σ _).run state = (result, after) ∧
    (result = .ok () → toView.Written path text (toView.files state) (toView.files after))
  /-- Making a directory does it or changes nothing. -/
  makeDirectory_run : ∀ path state, ∃ result after,
    (Host.makeDirectory path : StateM σ _).run state = (result, after) ∧
    match result with
    | .ok () => toView.Made path (toView.files state) (toView.files after)
    | .error _ => toView.files after = toView.files state

/-! ## Making directories -/

namespace View

variable {σ : Type} (view : View σ)

/-- Some of these directories are made, one after the other. -/
inductive Making (paths : List String) : view.Files → view.Files → Prop
  | refl (files : view.Files) : Making paths files files
  | tail {before between after : view.Files} {path : String} (earlier : Making paths before between)
      (asked : path ∈ paths) (made : view.Made path between after) : Making paths before after

variable {view} {paths : List String} {before between after : view.Files}

theorem Making.trans (first : view.Making paths before between)
    (second : view.Making paths between after) : view.Making paths before after := by
  induction second with
  | refl => exact first
  | tail _ asked made ih => exact .tail ih asked made

theorem Making.mono {more : List String} (h : view.Making paths before after)
    (subset : paths ⊆ more) : view.Making more before after := by
  induction h with
  | refl => exact .refl _
  | tail _ asked made ih => exact .tail ih (subset asked) made

/-- What stands at a place is as before, or it is a directory that was made there. -/
theorem Making.entry? (h : view.Making paths before after) (place : view.Place) :
    view.entry? after place = view.entry? before place ∨
      view.entry? before place = none ∧ view.entry? after place = some .directory ∧
        ∃ path ∈ paths, view.place? after path = some place := by
  induction h with
  | refl => exact .inl rfl
  | @tail between after path earlier asked made ih =>
    obtain ⟨made, put, empty⟩ := made
    by_cases here : place = made
    · subst here
      rcases ih with same | ⟨-, stood, -⟩
      · exact .inr ⟨same ▸ empty, put.put, path, asked, put.paths _ _ put.leads⟩
      · rw [empty] at stood
        cases stood
    · rw [put.others place here]
      rcases ih with same | ⟨none, directory, path, asked, leads⟩
      · exact .inl same
      · exact .inr ⟨none, directory, path, asked, put.paths _ _ leads⟩

end View

/-- All that the action changes are these directories, which it may make. -/
def MakesOnly {σ α : Type} (view : View σ) (paths : List String) (action : StateM σ α) : Prop :=
  ∀ before, view.Making paths (view.files before) (view.files (action.run before).2)

namespace MakesOnly

variable {σ α β : Type} {view : View σ} {paths : List String}

theorem pure (a : α) : MakesOnly view paths (Pure.pure a) :=
  fun before => .refl (view.files before)

theorem bind {action : StateM σ α} {next : α → StateM σ β} (first : MakesOnly view paths action)
    (rest : ∀ a, MakesOnly view paths (next a)) : MakesOnly view paths (action >>= next) := by
  intro before
  exact (first before).trans (rest _ _)

theorem mono {more : List String} {action : StateM σ α} (h : MakesOnly view paths action)
    (subset : paths ⊆ more) : MakesOnly view more action :=
  fun before => (h before).mono subset

theorem of_answers {action : StateM σ α}
    (h : ∀ before, ∃ answer, view.Answers action before answer) : MakesOnly view paths action := by
  intro before
  obtain ⟨answer, after, run, same, -⟩ := h before
  rw [run]
  dsimp only
  rw [same]
  exact .refl _

end MakesOnly

namespace Surroundings

variable {σ : Type} [Host (StateM σ)] (host : Surroundings σ)

theorem settle_makesOnly (paths : List String) (path : String) (failure : FileError) :
    MakesOnly host.toView paths (Host.settle path failure : StateM σ _) := by
  unfold Host.settle
  apply MakesOnly.bind
  · exact .of_answers fun before => ⟨_, host.isDirectory_run path before⟩
  · intro stands
    split <;> exact .pure _

theorem makeDirectory_makesOnly {paths : List String} {path : String} (asked : path ∈ paths) :
    MakesOnly host.toView paths (Host.makeDirectory path : StateM σ _) := by
  intro before
  obtain ⟨result, after, run, did⟩ := host.makeDirectory_run path before
  rw [run]
  cases result with
  | ok _ => exact .tail (.refl _) asked did
  | error failure =>
    have same : host.files after = host.files before := did
    dsimp only
    rw [same]
    exact .refl _

/-- Whether it succeeds or fails. -/
theorem makeEnclosed_makesOnly (paths : List String) :
    MakesOnly host.toView paths (Host.makeEnclosed paths : StateM σ _) := by
  induction paths with
  | nil => exact .pure _
  | cons path enclosing ih =>
    have once := host.makeDirectory_makesOnly (List.mem_cons_self (a := path) (l := enclosing))
    unfold Host.makeEnclosed
    split
    · exact .pure _
    · apply once.bind
      intro result
      split
      · exact .pure _
      · -- what encloses it is made, and then it is tried again
        apply (ih.mono (List.subset_cons_self path enclosing)).bind
        intro enclosed
        split
        · exact .pure _
        · apply once.bind
          intro result
          split
          · exact .pure _
          · exact host.settle_makesOnly _ path _
      · exact host.settle_makesOnly _ path _

end Surroundings

/-! ## Sessions -/

namespace Session

/-- A session as it looks. -/
def view : View Session where
  Files := FileTree × Location
  Place := Location
  files session := (session.tree, session.directory)
  input session := .ok session.input
  output := Session.output
  entry? files := files.1.get?
  place? files path :=
    match files.1.site files.2 path with
    | .ok (place, _) => place
    | .error _ => none
  isFile files := files.1.isFile files.2
  isDirectory files := files.1.isDirectory files.2
  read files := files.1.read files.2

theorem view_place? {tree : FileTree} {base place : Location} {path : String}
    (h : view.place? (tree, base) path = some place) :
    ∃ ended, tree.site base path = .ok (some place, ended) := by
  unfold view at h
  dsimp only at h
  split at h
  · rename_i found ended led
    rw [led, h]
    exact ⟨ended, rfl⟩
  · cases h

theorem put_of_site {tree : FileTree} {base place : Location} {path : String} {ended : Bool}
    (led : tree.site base path = .ok (some place, ended)) (vacant : tree.get? place ≠ some .directory)
    (entry : Entry) : view.Put path entry place (tree, base) (tree.put place entry, base) where
  leads := by
    unfold view
    dsimp only
    rw [led]
  vacant := vacant
  put := by
    apply FileTree.get?_put_self
    rintro rfl
    exact vacant rfl
  others other apart := FileTree.get?_put_of_ne tree entry apart
  paths other found leads := by
    obtain ⟨ended, led⟩ := view_place? leads
    unfold view
    dsimp only
    rw [FileTree.site_put vacant entry led]

/-- Sessions do what they say. -/
def surroundings : Surroundings Session where
  toView := view
  isFile_run _ session := ⟨session, rfl, rfl, rfl, rfl⟩
  isDirectory_run _ session := ⟨session, rfl, rfl, rfl, rfl⟩
  readFile_run _ session := ⟨session, rfl, rfl, rfl, rfl⟩
  report_run _ session := ⟨_, rfl, rfl, rfl, rfl⟩
  announce_run _ session := ⟨_, rfl, rfl, rfl, rfl⟩
  milliseconds_run session := ⟨0, session, rfl, rfl, rfl, rfl⟩
  readInput_run session := ⟨_, rfl, rfl, rfl⟩
  writeFile_run path text session := by
    refine ⟨_, _, rfl, ?_⟩
    intro succeeded
    cases written : session.tree.write session.directory path text with
    | error failure =>
      rw [written] at succeeded
      cases succeeded
    | ok tree =>
      obtain ⟨place, led, vacant, rfl⟩ := FileTree.write_eq_ok written
      exact ⟨⟨place, put_of_site led vacant _⟩, FileTree.read_write written⟩
  makeDirectory_run path session := by
    refine ⟨_, _, rfl, ?_⟩
    cases made : session.tree.makeDirectory session.directory path with
    | error failure => rfl
    | ok tree =>
      obtain ⟨place, ended, led, empty, rfl⟩ := FileTree.makeDirectory_eq_ok made
      have vacant : session.tree.get? place ≠ some .directory := by
        rw [empty]
        simp
      exact ⟨place, put_of_site led vacant _, empty⟩

end Session

end ApiTypes
