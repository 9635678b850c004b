/-!
What can go wrong with a file, and the text the system has for it.
-/

namespace ApiTypes

inductive FileError
  | notFound
  | alreadyExists
  /-- A file stands where the path goes on. -/
  | notDirectory
  | isDirectory
  | nameTooLong
  /-- The path holds a character that no path may hold. -/
  | malformedName
  /-- The octets read are not UTF-8. -/
  | notText
  /-- Anything else, in the words of the system. -/
  | other (detail : String)
  deriving DecidableEq, Repr

/-- A system error with its number. -/
def FileError.numbered (text : String) (number : Nat) : String :=
  text ++ " (os error " ++ toString number ++ ")"

def FileError.message : FileError → String
  | .notFound => numbered "No such file or directory" 2
  | .alreadyExists => numbered "File exists" 17
  | .notDirectory => numbered "Not a directory" 20
  | .isDirectory => numbered "Is a directory" 21
  | .nameTooLong => numbered "File name too long" 36
  | .malformedName => "file name contained an unexpected NUL byte"
  | .notText => "stream did not contain valid UTF-8"
  | .other detail => detail

end ApiTypes
