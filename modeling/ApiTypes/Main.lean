import ApiTypes.Command.Run

/-!
The program. It runs the command on the system's own files and streams.
-/

namespace ApiTypes

/-- The number of a system error. Some operations give it negated. -/
def systemNumber (number : UInt32) : Nat :=
  if number.toNat < Nat.pow 2 31 then number.toNat else Nat.pow 2 32 - number.toNat

/-- An error of the system by its number and its text. -/
def FileError.ofNumber (number : UInt32) (text : String) : FileError :=
  match systemNumber number with
  | 2 => .notFound
  | 17 => .alreadyExists
  | 20 => .notDirectory
  | 21 => .isDirectory
  | 36 => .nameTooLong
  | number => .other (numbered text number)

def FileError.ofSystem (error : IO.Error) : FileError :=
  match error with
  | .noFileOrDirectory _ number text => ofNumber number text
  | .alreadyExists _ number text => ofNumber number text
  | .inappropriateType _ number text => ofNumber number text
  | .invalidArgument _ number text => ofNumber number text
  | .permissionDenied _ number text => ofNumber number text
  | .resourceExhausted _ number text => ofNumber number text
  | .resourceBusy number text => ofNumber number text
  | .otherError number text => ofNumber number text
  | error => .other (toString error)

/-- Does something that may fail. -/
def attempt {α : Type} (action : IO α) : IO (Except FileError α) := do
  match ← action.toBaseIO with
  | .ok value => return .ok value
  | .error error => return .error (.ofSystem error)

/-- Octets as text. -/
def decodeText (octets : ByteArray) : Except FileError String :=
  match String.fromUTF8? octets with
  | some text => .ok text
  | none => .error .notText

/-- All that is left of a stream. -/
partial def readAll (stream : IO.FS.Stream) (before : ByteArray) : IO ByteArray := do
  let octets ← stream.read 65536
  if octets.isEmpty then return before else readAll stream (before ++ octets)

/-- Whether there is something to open at a path. -/
def opens (path : String) : IO Bool := do
  match ← attempt (IO.FS.Handle.mk path .read) with
  | .ok _ => return true
  | .error _ => return false

/-- Writes all of a text to a stream. -/
def write (stream : IO IO.FS.Stream) (text : String) : IO Unit := do
  let stream ← stream
  stream.putStr text
  stream.flush

instance : Host IO where
  isFile path := return (← opens path) && !(← opens (path ++ "/."))
  isDirectory path := opens (path ++ "/.")
  readFile path := return (← attempt (IO.FS.readBinFile path)).bind decodeText
  writeFile path text := attempt (IO.FS.writeFile path text)
  makeDirectory path := attempt (IO.FS.createDir path)
  readInput := do
    let stream ← IO.getStdin
    return (← attempt (readAll stream .empty)).bind decodeText
  print text := attempt (write IO.getStdout text)
  printError text := attempt (write IO.getStderr text)
  announce line := write IO.getStdout (line ++ "\n")
  report line := write IO.getStderr (line ++ "\n")
  milliseconds := IO.monoMsNow

end ApiTypes

/-- A line that cannot be written ends the program with the code of a defect. -/
def main (arguments : List String) : IO UInt32 := do
  match ← ApiTypes.attempt (ApiTypes.Command.run ApiTypes.unformatted arguments) with
  | .ok code => return code.number.toUInt32
  | .error _ => return 101
