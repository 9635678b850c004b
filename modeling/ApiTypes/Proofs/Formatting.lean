import ApiTypes.Compile
import ApiTypes.Proofs.Api.Closure

/-!
# Formatting loses nothing

Compiling with a formatter is compiling without one, and then formatting the text that this gives
(`compileWith_eq`). So a document that cannot be compiled never reaches the formatter, and one that
can reaches it once; when the formatter fails, text and warnings are those that there were, and a
last warning without a place says why (`compileWith_recorded`).
-/

namespace ApiTypes

open Api

/-- The result of formatting what was compiled. -/
def Compiled.formatted (compiled : Compiled) : Except FormatError String → Compiled
  | .ok text => ⟨text, compiled.warnings⟩
  | .error cause => ⟨compiled.text, compiled.warnings ++ [formatWarning cause]⟩

theorem compile_eq (document : Document) (options : CompileOptions) :
    compile document options = (declare document options).map fun assembly =>
      ⟨Declaration.print options.rawSchema assembly.declarations, assembly.warnings⟩ := by
  unfold compile compileWith
  cases declare document options with
  | error error => rfl
  | ok assembly => rfl

theorem compileWith_eq {m : Type → Type} [Monad m] [LawfulMonad m] (formatter : Formatter m)
    (document : Document) (options : CompileOptions) :
    compileWith formatter document options =
      match compile document options with
      | .error error => pure (.error error)
      | .ok compiled => do
        let result ← formatter compiled.text options.styleConfig
        return .ok (compiled.formatted result) := by
  rw [compile_eq]
  unfold compileWith Declaration.printWith
  cases declare document options with
  | error error => rfl
  | ok assembly =>
    simp only [Except.map, bind_assoc]
    apply bind_congr
    intro result
    cases result with
    | ok text => simp only [pure_bind, Compiled.formatted]
    | error cause => simp only [pure_bind, Compiled.formatted]

theorem compileWith_unformatted {m : Type → Type} [Monad m] [LawfulMonad m] (document : Document)
    (options : CompileOptions) :
    compileWith (unformatted : Formatter m) document options = pure (compile document options) := by
  rw [compileWith_eq]
  cases compile document options with
  | error error => rfl
  | ok compiled => simp only [unformatted, pure_bind, Compiled.formatted]

/-- Every warning of assembly points at a place. -/
theorem Api.assemble_warnings_placed {index : Index} {dialect : Dialect} {rawSchema : Bool}
    {assembly : Assembly} (h : assemble index dialect rawSchema = .ok assembly) :
    ∀ warning ∈ assembly.warnings, ∃ place, warning.pointer = some place ∧
      (index.get? place).isSome := by
  obtain ⟨_, _, declared, promoted, state, -, -, assembled, rfl⟩ := assemble_runs h
  exact assembled.valid.warned

theorem compile_warnings_placed {document : Document} {options : CompileOptions}
    {compiled : Compiled} (h : compile document options = .ok compiled) :
    ∀ warning ∈ compiled.warnings, warning.pointer.isSome := by
  rw [compile_eq] at h
  unfold declare at h
  cases hd : dialectOf document options with
  | error error =>
    rw [hd] at h
    cases h
  | ok dialect =>
    rw [hd] at h
    dsimp only at h
    cases ha : assemble (indexOf document dialect options.rawSchema) dialect options.rawSchema with
    | error error =>
      rw [ha] at h
      cases h
    | ok assembly =>
      rw [ha] at h
      cases h
      intro warning hm
      obtain ⟨place, placed, -⟩ := assemble_warnings_placed ha warning hm
      rw [placed]
      rfl

/-- A formatter that writes down what it is asked to format. -/
def recorded (format : String → Option String → Except FormatError String) :
    Formatter (StateM (List (String × Option String))) :=
  fun text styleConfig => do
    modify fun asked => asked ++ [(text, styleConfig)]
    return format text styleConfig

/-- Of any document, options and formatter: where compiling fails, compiling with the formatter
fails alike and the formatter is not asked. Otherwise the formatter is asked once, for the compiled
text with the style configuration of the options, and its text takes the place of that one; or,
where it fails, text and warnings stay and one warning comes last, the only one without a place,
that gives the reason. -/
theorem compileWith_recorded (format : String → Option String → Except FormatError String)
    (document : Document) (options : CompileOptions) (asked : List (String × Option String)) :
    match compile document options with
    | .error error =>
      (compileWith (recorded format) document options).run asked = (.error error, asked)
    | .ok compiled =>
      (compileWith (recorded format) document options).run asked =
        (.ok (match format compiled.text options.styleConfig with
          | .ok text => ⟨text, compiled.warnings⟩
          | .error cause =>
            ⟨compiled.text, compiled.warnings ++ [⟨.postProcessing, none, cause.message⟩]⟩),
          asked ++ [(compiled.text, options.styleConfig)]) ∧
      ∀ warning ∈ compiled.warnings, warning.pointer.isSome := by
  rw [compileWith_eq]
  cases h : compile document options with
  | error error => rfl
  | ok compiled =>
    constructor
    · unfold recorded Compiled.formatted
      dsimp only
      cases format compiled.text options.styleConfig with
      | ok text => rfl
      | error cause => rfl
    · exact compile_warnings_placed h

end ApiTypes
