import ApiTypes.Files.Error
import ApiTypes.Files.Path

/-!
What the command needs of its surroundings: files, three streams and a clock. Everything the
command does is written against these operations, so it can be run on a real system as well as on
a value that stands for one.
-/

namespace ApiTypes

class Host (m : Type → Type) where
  /-- Whether a path leads to a file. -/
  isFile : String → m Bool
  /-- Whether a path leads to a directory. -/
  isDirectory : String → m Bool
  readFile : String → m (Except FileError String)
  /-- Writes a file, over the one that may stand there. -/
  writeFile : String → String → m (Except FileError Unit)
  /-- Makes a directory in one that is there. -/
  makeDirectory : String → m (Except FileError Unit)
  /-- Reads all that is left of the standard input. -/
  readInput : m (Except FileError String)
  /-- Writes to the standard output. -/
  print : String → m (Except FileError Unit)
  /-- Writes to the stream for errors. -/
  printError : String → m (Except FileError Unit)
  /-- Writes a line to the standard output. Where that cannot be done the program ends at once. -/
  announce : String → m Unit
  /-- Writes a line to the stream for errors. Where that cannot be done the program ends at once. -/
  report : String → m Unit
  /-- A clock in milliseconds, whose differences count. -/
  milliseconds : m Nat

namespace Host

variable {m : Type → Type} [Monad m] [Host m]

/-- What a failed attempt to make a directory comes to: no failure where a directory stands. -/
def settle (path : String) (failure : FileError) : m (Except FileError Unit) := do
  if ← isDirectory path then return .ok () else return .error failure

/-- Makes the first of these directories after those behind it, each of which encloses the one
before. Nothing is made of the empty path, which is where the command runs. -/
def makeEnclosed : List String → m (Except FileError Unit)
  | [] => return .error (.other "failed to create whole tree")
  | path :: enclosing => do
    if path.isEmpty then return .ok ()
    match ← makeDirectory path with
    | .ok () => return .ok ()
    | .error .notFound =>
      match ← makeEnclosed enclosing with
      | .error failure => return .error failure
      | .ok () =>
        match ← makeDirectory path with
        | .ok () => return .ok ()
        | .error failure => settle path failure
    | .error failure => settle path failure

/-- Makes a directory with all that enclose it. One that is there already is no failure. -/
def makeDirectories (path : String) : m (Except FileError Unit) :=
  makeEnclosed (Path.ancestors path)

end Host

end ApiTypes
