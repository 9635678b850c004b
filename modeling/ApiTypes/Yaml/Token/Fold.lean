import ApiTypes.Yaml.Cursor

/-!
Line folding: what blanks and line breaks inside a scalar become. A single break is a space, of
several the first is dropped, and blanks around breaks do not count.
-/

namespace ApiTypes.Yaml

/-- Blanks and breaks passed inside a scalar. -/
structure Gap where
  /-- Whether a line ended here. -/
  hasBreak : Bool := false
  /-- The blanks, where no line ended. -/
  blanks : List Char := []
  /-- The first break. -/
  first : List Char := []
  /-- The other breaks. -/
  others : List Char := []

namespace Gap

/-- The gap after an escaped break, which is nothing itself. -/
def afterEscapedBreak : Gap where
  hasBreak := true

/-- What a gap becomes. -/
def folded (gap : Gap) : List Char :=
  if gap.hasBreak then
    if gap.first == ['\n'] then if gap.others.isEmpty then [' '] else gap.others
    else gap.first ++ gap.others
  else gap.blanks

/-- Adds a blank. Those after a break do not count. -/
def addBlank (gap : Gap) (c : Char) : Gap :=
  if gap.hasBreak then gap else { gap with blanks := gap.blanks ++ [c] }

def addBreak (gap : Gap) (text : List Char) : Gap :=
  if gap.hasBreak then { gap with others := gap.others ++ text }
  else { gap with hasBreak := true, blanks := [], first := text }

end Gap

/-- Reads blanks and breaks. A tab before `column` in a new line is refused. -/
def readGap (column : Int) (gap : Gap) (cursor : Cursor) : Option (Gap × Cursor) :=
  match _more : cursor.rest with
  | [] => some (gap, cursor)
  | c :: _ =>
    if _blank : isBlank c then
      if gap.hasBreak && cursor.column < column && c == '\t' then none
      else readGap column (gap.addBlank c) cursor.skip
    else if _ends : isBreak c then readGap column (gap.addBreak cursor.readBreak.1) cursor.readBreak.2
    else some (gap, cursor)
termination_by cursor.left
decreasing_by
  · exact Cursor.skip_lt _more 1 (by decide)
  · exact Cursor.readBreak_lt _more _ends

end ApiTypes.Yaml
