import ApiTypes.Command.Host

/-!
Where a formatter finds its style configuration: in the nearest enclosing directory that has one
of the files known for it, in a fixed order of preference.
-/

namespace ApiTypes.StyleConfig

/-- The names a configuration file may have, the preferred ones first. -/
def fileNames : List String :=
  [".prettierrc", ".prettierrc.json", ".prettierrc.yaml", ".prettierrc.yml", ".prettierrc.json5",
    ".prettierrc.toml", ".prettierrc.js", ".prettierrc.cjs", "prettier.config.js",
    "prettier.config.cjs"]

/-- The paths to try from a directory on, in order. -/
def candidates (start : String) : List String :=
  (Path.ancestors start).flatMap fun directory => fileNames.map (Path.join directory)

variable {m : Type → Type} [Monad m] [Host m]

/-- The first path that leads to a file. -/
def firstFile : List String → m (Option String)
  | [] => return none
  | path :: rest => do
    if ← Host.isFile path then return some path else firstFile rest

/-- The configuration in force in a directory. -/
def discover (start : String) : m (Option String) :=
  firstFile (candidates start)

end ApiTypes.StyleConfig
