import ApiTypes.Files.Error
import ApiTypes.Text.Lines

/-!
A tree of files. A path is followed name by name: every name before the last must lead to a
directory, an empty name and a dot stay where they are, and two dots go up. A file can be made
only under a name of its own in a directory that is there. `get?_put_self` and `get?_put_of_ne` say
that an entry that is put changes what stands at its location and nothing else.
-/

namespace ApiTypes

/-- A place in a tree, by the names that lead to it from the top. -/
abbrev Location := List String

inductive Entry
  | directory
  | file (text : String)
  deriving DecidableEq, Repr

/-- What stands where. The top is always a directory and is not listed. -/
structure FileTree where
  entries : List (Location × Entry)
  deriving Repr

namespace FileTree

/-- The tree of the top alone. -/
def empty : FileTree :=
  ⟨[]⟩

/-- What stands at a location. -/
def get? (tree : FileTree) : Location → Option Entry
  | [] => some .directory
  | location => tree.entries.lookup location

/-- Puts an entry at a location, in the place of the one before. -/
def put (tree : FileTree) (location : Location) (entry : Entry) : FileTree :=
  ⟨(location, entry) :: tree.entries.filter (·.1 != location)⟩

theorem get?_put_self (tree : FileTree) {location : Location} (entry : Entry)
    (named : location ≠ []) : (tree.put location entry).get? location = some entry := by
  cases location with
  | nil => exact absurd rfl named
  | cons name rest => simp [put, get?]

theorem get?_put_of_ne (tree : FileTree) {location other : Location} (entry : Entry)
    (apart : other ≠ location) : (tree.put location entry).get? other = tree.get? other := by
  cases other with
  | nil => rfl
  | cons name rest =>
    have first : ((name :: rest : Location) == location) = false := by simpa using apart
    simp only [put, get?, List.lookup_cons, first]
    induction tree.entries with
    | nil => rfl
    | cons head tail ih =>
      obtain ⟨place, old⟩ := head
      by_cases same : place = location
      · have second : ((name :: rest : Location) == place) = false := by simpa [same] using apart
        rw [List.filter_cons_of_neg (by simp [same]), List.lookup_cons, second]
        exact ih
      · rw [List.filter_cons_of_pos (by simp [same]), List.lookup_cons, List.lookup_cons, ih]

/-- The directory at a location, or why there is none. -/
def requireDirectory (tree : FileTree) (location : Location) : Except FileError Unit :=
  match tree.get? location with
  | some .directory => .ok ()
  | some (.file _) => .error .notDirectory
  | none => .error .notFound

/-- How many octets a name may have. -/
def maxName : Nat :=
  255

/-- How many octets a path may have. -/
def maxPath : Nat :=
  4095

/-- Follows one name from a location. Whether anything stands there is not asked. -/
def step (tree : FileTree) (here : Location) (name : String) : Except FileError Location := do
  tree.requireDirectory here
  if name.utf8ByteSize > maxName then throw .nameTooLong
  return if name == "" || name == "." then here
    else if name == ".." then here.dropLast
    else here ++ [name]

/-- Follows names from a location. -/
def walk (tree : FileTree) (here : Location) (names : List String) : Except FileError Location :=
  names.foldlM tree.step here

/-- The names of a path and the location they are followed from. -/
def namesOf (base : Location) (path : String) : Except FileError (Location × List String) :=
  if path.isEmpty then .error .notFound
  else if path.toList.contains '\x00' then .error .malformedName
  else if path.utf8ByteSize > maxPath then .error .nameTooLong
  else
    let names := (Text.pieces (· == '/') path.toList).map String.ofList
    .ok (if path.toList.head? == some '/' then [] else base, names)

/-- What a path leads to, from a directory. -/
def find (tree : FileTree) (base : Location) (path : String) : Except FileError Entry := do
  let (start, names) ← namesOf base path
  let location ← tree.walk start names
  match tree.get? location with
  | some entry => return entry
  | none => throw .notFound

/-- Whether a path leads to a file. -/
def isFile (tree : FileTree) (base : Location) (path : String) : Bool :=
  match tree.find base path with
  | .ok (.file _) => true
  | _ => false

/-- Whether a path leads to a directory. -/
def isDirectory (tree : FileTree) (base : Location) (path : String) : Bool :=
  match tree.find base path with
  | .ok .directory => true
  | _ => false

/-- The text of the file that a path leads to. -/
def read (tree : FileTree) (base : Location) (path : String) : Except FileError String := do
  match ← tree.find base path with
  | .file text => return text
  | .directory => throw .isDirectory

/-- Where a path would have something made, and whether it says that it is to be a directory by
ending in a slash. Without a name of its own, as at the top or after dots, there is no such
place. -/
def site (tree : FileTree) (base : Location) (path : String) :
    Except FileError (Option Location × Bool) := do
  let (start, names) ← namesOf base path
  match names.reverse.dropWhile (· == "") with
  | [] => return (none, true)
  | last :: above =>
    let directory ← tree.walk start above.reverse
    let location ← tree.step directory last
    let isNamed := last != "." && last != ".."
    return (if isNamed then some location else none, names.getLast? == some "")

/-- Writes a file, over the one that may stand there. -/
def write (tree : FileTree) (base : Location) (path text : String) : Except FileError FileTree := do
  match ← tree.site base path with
  | (some location, false) =>
    if tree.get? location = some .directory then throw .isDirectory
    return tree.put location (.file text)
  | _ => throw .isDirectory

/-- Makes a directory where nothing stands yet. -/
def makeDirectory (tree : FileTree) (base : Location) (path : String) :
    Except FileError FileTree := do
  match (← tree.site base path).1 with
  | some location =>
    if (tree.get? location).isSome then throw .alreadyExists
    return tree.put location .directory
  | none => throw .alreadyExists

/-- The files at and below a location, with the names that lead to them from there. -/
def filesBelow (tree : FileTree) (base : Location) : List (Location × String) :=
  tree.entries.filterMap fun (location, entry) =>
    match entry with
    | .file text => if base.isPrefixOf location then some (location.drop base.length, text) else none
    | .directory => none

end FileTree

end ApiTypes
