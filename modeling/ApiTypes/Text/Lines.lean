import ApiTypes.Text.Blank

/-!
Cutting text into pieces at separating characters, and prose into its lines.
-/

namespace ApiTypes.Text

/-- The stretches between separators. There is always one more of them than there are
separators, so the empty text is one empty piece. -/
def pieces (isSeparator : Char → Bool) : List Char → List (List Char)
  | [] => [[]]
  | c :: rest =>
    if isSeparator c then [] :: pieces isSeparator rest
    else (pieces isSeparator rest).modifyHead (c :: ·)

/-- The lines of a text. A line feed ends a line, so nothing follows the last one. -/
def lines (text : List Char) : List (List Char) :=
  let parts := pieces (· == '\n') text
  if parts.getLast? = some [] then parts.dropLast else parts

/-- The lines of a prose text, each without the blanks it ends in. -/
def proseLines (text : String) : List String :=
  (lines text.toList).map fun line => String.ofList (trimEnd line)

end ApiTypes.Text
