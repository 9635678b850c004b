import ApiTypes.Text.Lines

/-!
Paths as text. A slash separates names, and a path that begins with one starts at the top. Within
a path an empty name and a single dot stand for nothing; a dot that the path begins with is kept.
The enclosing paths are cut out of the text and nothing in them is simplified.
-/

namespace ApiTypes.Path

/-- What a path begins with before its names: a slash, a dot or nothing. -/
def beginning : List Char → List Char × List Char
  | '/' :: rest => (['/'], rest)
  | ['.'] => (['.'], [])
  | '.' :: '/' :: rest => (['.'], '/' :: rest)
  | path => ([], path)

/-- Whether a name stands for nothing. -/
def isIdle (name : List Char) : Bool :=
  name == [] || name == ['.']

/-- The names of a path after its beginning, the last one first. The first of them is none that
stands for nothing. -/
def reversedNames (path : List Char) : List (List Char) :=
  ((Text.pieces (· == '/') path).reverse).dropWhile isIdle

/-- Names with slashes between them. -/
def joinNames (names : List (List Char)) : List Char :=
  List.flatten (names.intersperse ['/'])

/-- The paths that enclose a path, the nearest first. -/
def enclosing (start : List Char) : List (List Char) → List (List Char)
  | [] => if start == ['.'] then [[]] else []
  | name :: above =>
    if isIdle name then enclosing start above
    else (start ++ joinNames (above.dropWhile isIdle).reverse) :: enclosing start above

/-- A path and all that enclose it, the nearest first. -/
def ancestors (path : String) : List String :=
  let (start, names) := beginning path.toList
  path :: (enclosing start (reversedNames names)).map String.ofList

/-- The enclosing path. The top and the empty path have none. -/
def parent? (path : String) : Option String :=
  (ancestors path).tail.head?

/-- The name at the end of a path. A path that ends by going up has none. -/
def fileName? (path : String) : Option (List Char) :=
  match reversedNames (beginning path.toList).2 with
  | name :: _ => if name == ['.', '.'] then none else some name
  | [] => none

/-- What follows the last dot of the name, unless the name begins with that dot. -/
def extension? (path : String) : Option String := do
  let name ← fileName? path
  let after := name.reverse.takeWhile (· != '.')
  match name.reverse.drop after.length with
  | [] => none
  | ['.'] => none
  | _ => some (String.ofList after.reverse)

/-- The path of a name in a directory. -/
def join (directory name : String) : String :=
  match directory.toList.getLast? with
  | none => name
  | some '/' => directory ++ name
  | some _ => directory ++ "/" ++ name

end ApiTypes.Path
