/-!
The tokens of a YAML text. Indentation has become brackets: a block collection starts with a token
of its own and ends with `blockEnd`, and every simple key has a `key` before it.
-/

namespace ApiTypes.Yaml

inductive Token
  | version (major minor : Nat)
  | tagDirective (handle expansion : String)
  | documentStart
  | documentEnd
  | blockSequenceStart
  | blockMappingStart
  | blockEnd
  | flowSequenceStart
  | flowSequenceEnd
  | flowMappingStart
  | flowMappingEnd
  | blockEntry
  | flowEntry
  | key
  | value
  | alias (name : String)
  | anchor (name : String)
  /-- A tag; its handle is empty when it is written out in full. -/
  | tag (handle suffix : String)
  /-- A scalar. Only a plain one may be anything but text. -/
  | scalar (text : String) (isPlain : Bool)
  deriving DecidableEq, Repr

end ApiTypes.Yaml
