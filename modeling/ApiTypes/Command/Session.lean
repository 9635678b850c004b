import ApiTypes.Command.Host
import ApiTypes.Files.Tree

/-!
A run of the command as a value: the tree of files it works on, the directory it runs in, what it
is given to read and what it has written.
-/

namespace ApiTypes

structure Session where
  tree : FileTree
  /-- The directory that relative paths start from. -/
  directory : Location
  /-- What is left of the standard input. -/
  input : String := ""
  output : String := ""
  errors : String := ""
  deriving Repr

namespace Session

/-- Puts a changed tree into the session. A failed change leaves it as it was. -/
def change (session : Session) :
    Except FileError FileTree → Except FileError Unit × Session
  | .ok tree => (.ok (), { session with tree })
  | .error failure => (.error failure, session)

/-- The clock of a session stands still. -/
instance : Host (StateM Session) where
  isFile path := fun session => (session.tree.isFile session.directory path, session)
  isDirectory path := fun session => (session.tree.isDirectory session.directory path, session)
  readFile path := fun session => (session.tree.read session.directory path, session)
  writeFile path text := fun session =>
    session.change (session.tree.write session.directory path text)
  makeDirectory path := fun session =>
    session.change (session.tree.makeDirectory session.directory path)
  readInput := fun session => (.ok session.input, { session with input := "" })
  print text := fun session => (.ok (), { session with output := session.output ++ text })
  printError text := fun session => (.ok (), { session with errors := session.errors ++ text })
  announce line := fun session => ((), { session with output := session.output ++ line ++ "\n" })
  report line := fun session => ((), { session with errors := session.errors ++ line ++ "\n" })
  milliseconds := fun session => (0, session)

end Session

end ApiTypes
