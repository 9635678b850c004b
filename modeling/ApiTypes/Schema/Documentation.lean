import ApiTypes.Json.Printer
import ApiTypes.Text.Lines
import ApiTypes.TypeExpr.Basic

/-!
What a schema says about itself to a reader: its title and description, and as tags the keywords
that restrict values without changing their type.
-/

namespace ApiTypes.Schema

/-- Keywords that become tags, in the order of the tags. -/
def taggedKeywords : List String :=
  ["format", "default", "example", "pattern", "minimum", "maximum", "exclusiveMinimum",
    "exclusiveMaximum", "minLength", "maxLength", "minItems", "maxItems"]

/-- The value of a tag. Formats and patterns that are strings stand as they are, and every other
value as JSON text. -/
def tagValue (keyword : String) (value : Json) : String :=
  match value with
  | .string text => if keyword == "format" || keyword == "pattern" then text else value.toText
  | _ => value.toText

/-- The lines of the text under a key. -/
def proseUnder (node : Json) (key : String) : List String :=
  ((node.text? key).map Text.proseLines).getD []

/-- The mark of what should not be used any more. -/
def deprecatedTags (node : Json) : List (String × String) :=
  if node.flag "deprecated" then [("deprecated", "")] else []

/-- The documentation of a schema. The title stands as it is written. -/
def doc? (node : Json) : Option Doc :=
  Doc.nonempty? {
    summary := (node.text? "title").toList ++ proseUnder node "description"
    tags :=
      deprecatedTags node ++
        taggedKeywords.filterMap fun keyword =>
          (node.get? keyword).map fun value => (keyword, tagValue keyword value) }

end ApiTypes.Schema
