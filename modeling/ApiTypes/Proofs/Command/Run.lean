import ApiTypes.Command.Run
import ApiTypes.Proofs.Command.Surroundings
import ApiTypes.Proofs.Formatting

/-!
# What a run changes

A run of the command reads, then compiles, and only then writes.

* `View.preparation` is what reading and compiling come to, as a function of how things look, and
  `generate_run` says that a run does this first and changes no file by it;
* `deliver_run`: text that is delivered to a file is all of it, and besides it there are new
  directories only, those that enclose the file;
* `run_generate`: so a run that is prevented leaves all files alone, and one that succeeds changes
  no more than it was asked to.
-/

namespace ApiTypes

open Command

/-! ## Before anything is written -/

section
variable {σ : Type} (view : View σ) (given : Arguments) (state : σ)

/-- The text of a source. -/
def View.textOf : Source → Except FileError String
  | .standardInput => view.input state
  | .file path => view.read (view.files state) path

/-- What the first line of a run says, if it has one. -/
def Arguments.banner : String :=
  if given.output.isSome then "✨ " ++ programName ++ " " ++ programVersion ++ "\n" else ""

/-- The document of a source. -/
def View.documentOf (source : Source) : Except LoadError Document :=
  match view.textOf state source with
  | .error cause => .error (.unreadable source cause)
  | .ok text =>
    match (TextFormat.ofSource source).parse? text with
    | some document => .ok document
    | none => .error (.unparsable source (TextFormat.ofSource source))

/-- The document asked for, compiled. -/
def View.compiledOf : Except Failure Compiled :=
  match view.documentOf state given.source with
  | .error error => .error (.load error)
  | .ok document =>
    match compile document given.options with
    | .error error => .error (.compile given.source error)
    | .ok compiled => .ok compiled

/-- What a run comes to before it writes. -/
def View.preparation : Except Failure Compiled :=
  match given.styleConfig with
  | none => view.compiledOf given state
  | some path =>
    if view.isFile (view.files state) path then view.compiledOf given state
    else .error (.styleConfigMissing path)

/-- Something is missing or wrong, so that there is nothing to write. -/
inductive View.Prevented : Prop
  | styleConfig (path : String) (asked : given.styleConfig = some path)
      (missing : view.isFile (view.files state) path = false) : Prevented
  | unreadable (cause : FileError) (failed : view.textOf state given.source = .error cause) : Prevented
  | unparsable (text : String) (read : view.textOf state given.source = .ok text)
      (failed : (TextFormat.ofSource given.source).parse? text = none) : Prevented
  | uncompilable (text : String) (document : Document) (error : CompileError)
      (read : view.textOf state given.source = .ok text)
      (parsed : (TextFormat.ofSource given.source).parse? text = some document)
      (failed : compile document given.options = .error error) : Prevented

variable {view given state}

theorem View.compiledOf_ok {compiled : Compiled} (h : view.compiledOf given state = .ok compiled) :
    ∃ text document, view.textOf state given.source = .ok text ∧
      (TextFormat.ofSource given.source).parse? text = some document ∧
      compile document given.options = .ok compiled := by
  unfold compiledOf documentOf at h
  cases read : view.textOf state given.source with
  | error cause =>
    simp only [read] at h
    cases h
  | ok text =>
    simp only [read] at h
    cases parsed : (TextFormat.ofSource given.source).parse? text with
    | none =>
      simp only [parsed] at h
      cases h
    | some document =>
      simp only [parsed] at h
      cases made : compile document given.options with
      | error error =>
        simp only [made] at h
        cases h
      | ok result =>
        simp only [made] at h
        cases h
        exact ⟨text, document, rfl, parsed, made⟩

theorem View.preparation_ok {compiled : Compiled} (h : view.preparation given state = .ok compiled) :
    view.compiledOf given state = .ok compiled ∧
      ∀ path, given.styleConfig = some path → view.isFile (view.files state) path = true := by
  unfold preparation at h
  split at h
  · rename_i unasked
    exact ⟨h, by simp [unasked]⟩
  · rename_i path asked
    split at h
    · rename_i found
      refine ⟨h, ?_⟩
      intro other same
      rw [asked] at same
      cases same
      exact found
    · cases h

theorem View.Prevented.fails (h : view.Prevented given state) :
    ∃ failure, view.preparation given state = .error failure := by
  cases result : view.preparation given state with
  | error failure => exact ⟨failure, rfl⟩
  | ok compiled =>
    exfalso
    obtain ⟨made, found⟩ := preparation_ok result
    obtain ⟨text, document, read, parsed, compiles⟩ := compiledOf_ok made
    cases h with
    | styleConfig path asked missing => simp [found path asked] at missing
    | unreadable cause failed => simp [read] at failed
    | unparsable text' read' failed =>
      rw [read] at read'
      cases read'
      simp [parsed] at failed
    | uncompilable text' document' error read' parsed' failed =>
      rw [read] at read'
      cases read'
      rw [parsed] at parsed'
      cases parsed'
      simp [compiles] at failed

end

/-! ## The steps of a run -/

theorem View.documentOf_congr {σ : Type} {view : View σ} {state other : σ}
    (files : view.files other = view.files state) (input : view.input other = view.input state)
    (source : Source) : view.documentOf other source = view.documentOf state source := by
  unfold documentOf
  cases source <;> simp only [textOf, files, input]

theorem run_bind_of {σ α β : Type} {action : StateM σ α} {next : α → StateM σ β} {before after : σ}
    {answer : α} (h : action.run before = (answer, after)) :
    (action >>= next).run before = (next answer).run after := by
  rw [StateT.run_bind, h]
  rfl

/-- The directories that enclose a file, by the path of the file. -/
def enclosingPaths (path : String) : List String :=
  match Path.parent? path with
  | none => []
  | some directory => Path.ancestors directory

namespace Surroundings

variable {σ : Type} [Host (StateM σ)] (host : Surroundings σ)

theorem checkStyleConfig_answers (given : Arguments) (state : σ) :
    ∃ result, host.Answers (checkStyleConfig given.styleConfig) state result ∧
      host.preparation given state =
        match result with
        | .error failure => .error failure
        | .ok () => host.compiledOf given state := by
  unfold checkStyleConfig View.preparation
  cases given.styleConfig with
  | none => exact ⟨.ok (), ⟨state, rfl, rfl, rfl, rfl⟩, rfl⟩
  | some path =>
    obtain ⟨after, run, same⟩ := host.isFile_run path state
    dsimp only
    by_cases found : host.isFile (host.files state) path = true
    · refine ⟨.ok (), ⟨after, ?_, same⟩, by rw [if_pos found]⟩
      simp only [StateT.run_bind, run, found]
      rfl
    · refine ⟨.error (.styleConfigMissing path), ⟨after, ?_, same⟩, by rw [if_neg found]⟩
      simp only [StateT.run_bind, run, found]
      rfl

/-- Reading takes up the input, at most. -/
theorem load_run (source : Source) (state : σ) : ∃ after,
    (source.load : StateM σ _).run state = (host.documentOf state source, after) ∧
      host.files after = host.files state ∧ host.output after = host.output state := by
  have read : ∃ after, (source.read : StateM σ _).run state = (host.textOf state source, after) ∧
      host.files after = host.files state ∧ host.output after = host.output state := by
    cases source with
    | standardInput => exact host.readInput_run state
    | file path =>
      obtain ⟨after, run, files, -, output⟩ := host.readFile_run path state
      exact ⟨after, run, files, output⟩
  obtain ⟨after, run, same⟩ := read
  refine ⟨after, ?_, same⟩
  unfold Source.load View.documentOf
  simp only [StateT.run_bind, run]
  cases host.textOf state source with
  | error cause => rfl
  | ok text =>
    dsimp only [bind, Id]
    cases (TextFormat.ofSource source).parse? text with
    | none => rfl
    | some document => rfl

theorem compileSource_run (given : Arguments) (state : σ) : ∃ after,
    (compileSource unformatted given : StateM σ _).run state =
      (host.compiledOf given state, after) ∧
      host.files after = host.files state ∧ host.output after = host.output state := by
  obtain ⟨after, run, same⟩ := host.load_run given.source state
  refine ⟨after, ?_, same⟩
  unfold compileSource View.compiledOf
  simp only [StateT.run_bind, run]
  cases host.documentOf state given.source with
  | error error => rfl
  | ok document =>
    change (compileWith unformatted document given.options >>= _ : StateM σ _).run after = _
    rw [compileWith_unformatted, pure_bind]
    dsimp only
    cases compile document given.options with
    | error error => rfl
    | ok compiled => rfl

theorem reports_answer (warnings : List Warning) (state : σ) :
    host.Answers (warnings.forM fun warning => Host.report ("⚠ " ++ warning.toText)) state
      () := by
  induction warnings generalizing state with
  | nil => exact ⟨state, rfl, rfl, rfl, rfl⟩
  | cons warning rest ih =>
    obtain ⟨reported, run, files, input, output⟩ :=
      host.report_run ("⚠ " ++ warning.toText) state
    obtain ⟨after, later, files', input', output'⟩ := ih reported
    refine ⟨after, ?_, files'.trans files, input'.trans input, output'.trans output⟩
    rw [List.forM_eq_forM, List.forM_cons, run_bind_of run]
    exact later

/-- A run after its first line. Up to where it delivers its text it changes nothing but the input. -/
theorem proceed_run (given : Arguments) (start : Nat) (before : σ) : ∃ between,
    host.files between = host.files before ∧ host.output between = host.output before ∧
      match host.preparation given before with
      | .error failure => (proceed unformatted given start : StateM σ _).run before =
        (.error failure, between)
      | .ok compiled => (proceed unformatted given start : StateM σ _).run before =
        (deliver given.source start compiled.text given.output : StateM σ _).run between := by
  obtain ⟨style, ⟨checked, run, files, input, output⟩, prepared⟩ :=
    host.checkStyleConfig_answers given before
  unfold proceed
  rw [run_bind_of run, prepared]
  cases style with
  | error failure => exact ⟨checked, files, output, rfl⟩
  | ok _ =>
    obtain ⟨made, run, files', output'⟩ := host.compileSource_run given checked
    have same : host.compiledOf given checked = host.compiledOf given before := by
      unfold View.compiledOf
      rw [View.documentOf_congr files input]
    rw [same] at run
    dsimp only
    rw [run_bind_of run]
    cases host.compiledOf given before with
    | error failure => exact ⟨made, files'.trans files, output'.trans output, rfl⟩
    | ok compiled =>
      obtain ⟨reported, run, files'', -, output''⟩ := host.reports_answer compiled.warnings made
      dsimp only
      rw [run_bind_of run]
      exact ⟨reported, files''.trans (files'.trans files), output''.trans (output'.trans output), rfl⟩

theorem firstLine_run (given : Arguments) (before : σ) : ∃ after,
    (firstLine given : StateM σ Unit).run before = ((), after) ∧
      host.files after = host.files before ∧ host.input after = host.input before ∧
      host.output after = host.output before ++ given.banner := by
  unfold firstLine Arguments.banner
  by_cases toFile : given.output.isSome = true
  · rw [if_pos toFile, if_pos toFile]
    obtain ⟨after, run, files, input, output⟩ :=
      host.announce_run ("✨ " ++ programName ++ " " ++ programVersion) before
    exact ⟨after, run, files, input, output.trans String.append_assoc⟩
  · rw [if_neg toFile, if_neg toFile]
    exact ⟨before, rfl, rfl, rfl, by simp⟩

/-- A run prints its first line, compiles what it reads, and then delivers the text. -/
theorem generate_run (given : Arguments) (before : σ) : ∃ between,
    host.files between = host.files before ∧
      host.output between = host.output before ++ given.banner ∧
      match host.preparation given before with
      | .error failure =>
        (generate unformatted given : StateM σ _).run before = (.error failure, between)
      | .ok compiled => ∃ start, (generate unformatted given : StateM σ _).run before =
        (deliver given.source start compiled.text given.output : StateM σ _).run between := by
  obtain ⟨start, started, run, filesStart, inputStart, outputStart⟩ := host.milliseconds_run before
  obtain ⟨announced, line, filesLine, inputLine, outputLine⟩ := host.firstLine_run given started
  obtain ⟨between, files, output, rest⟩ := host.proceed_run given start announced
  have same : host.preparation given announced = host.preparation given before := by
    unfold View.preparation View.compiledOf
    rw [View.documentOf_congr (filesLine.trans filesStart) (inputLine.trans inputStart), filesLine,
      filesStart]
  refine ⟨between, (files.trans filesLine).trans filesStart, ?_, ?_⟩
  · rw [output, outputLine, outputStart]
  · rw [same] at rest
    unfold generate
    rw [run_bind_of run, run_bind_of line]
    cases prepared : host.preparation given before with
    | error failure =>
      rw [prepared] at rest
      exact rest
    | ok compiled =>
      rw [prepared] at rest
      exact ⟨start, rest⟩

/-! ## Delivery -/

theorem write_run (path text : String) (before : σ) : ∃ result after,
    (Command.writeFile.write path text : StateM σ _).run before = (result, after) ∧
      (result = .ok () → host.Written path text (host.files before) (host.files after)) := by
  obtain ⟨result, after, run, written⟩ := host.writeFile_run path text before
  unfold Command.writeFile.write
  rw [run_bind_of run]
  cases result with
  | error cause => exact ⟨_, after, rfl, by simp⟩
  | ok _ => exact ⟨_, after, rfl, fun _ => written rfl⟩

/-- A file is written after the directories that enclose it are made. -/
theorem writeFile_made (path text : String) (before after : σ)
    (h : (Command.writeFile path text : StateM σ _).run before = (.ok (), after)) :
    ∃ between, host.Making (enclosingPaths path) (host.files before) between ∧
      host.Written path text between (host.files after) := by
  unfold Command.writeFile at h
  unfold enclosingPaths
  cases parent : Path.parent? path with
  | none =>
    rw [parent] at h
    obtain ⟨result, written, run, did⟩ := host.write_run path text before
    have same := run.symm.trans h
    cases same
    exact ⟨_, .refl _, did rfl⟩
  | some directory =>
    rw [parent] at h
    dsimp only at h ⊢
    have making := host.makeEnclosed_makesOnly (Path.ancestors directory) before
    rcases made : (Host.makeDirectories directory : StateM σ _).run before with ⟨result, between⟩
    have made' : (Host.makeEnclosed (Path.ancestors directory) : StateM σ _).run before = _ := made
    rw [made'] at making
    rw [run_bind_of made] at h
    cases result with
    | error cause => cases h
    | ok _ =>
      obtain ⟨result, written, run, did⟩ := host.write_run path text between
      have same := run.symm.trans h
      cases same
      exact ⟨_, making, did rfl⟩

/-- What is delivered to a file is written there and the files are left as they are then. -/
theorem deliver_run (source : Source) (start : Nat) (text path : String) (before after : σ)
    (h : (deliver source start text (some path) : StateM σ _).run before = (.ok (), after)) :
    ∃ between, host.Making (enclosingPaths path) (host.files before) between ∧
      host.Written path text between (host.files after) := by
  unfold deliver at h
  rcases written : (Command.writeFile path text : StateM σ _).run before with ⟨result, done⟩
  dsimp only at h
  rw [run_bind_of written] at h
  cases result with
  | error failure => cases h
  | ok _ =>
    obtain ⟨between, making, wrote⟩ := host.writeFile_made path text before done written
    obtain ⟨time, timed, run, files, -⟩ := host.milliseconds_run done
    dsimp only at h
    rw [run_bind_of run] at h
    obtain ⟨announced, line, files', -⟩ := host.announce_run ("🚀 " ++ source.toText ++
      " -> " ++ path ++ " [" ++ elapsedText (time - start) ++ "]") timed
    rw [run_bind_of line] at h
    cases h
    refine ⟨between, making, ?_⟩
    rw [files', files]
    exact wrote

/-! ## A whole run -/

/-- Of any command line that asks to generate, in any surroundings and without a formatter: a run
that is prevented ends with the code 1, prints no more than its first line and changes no file or
directory. A run that ends with the code 0 and was asked to write to a file read and compiled the
source, and leaves all of the text in the file; and all else is as before, but for directories that
enclose the file and were not there. -/
theorem run_generate {arguments : List String} {given : Arguments}
    (asked : Request.ofArguments arguments = .ok (.generate given)) (before : σ) :
    ∃ code after, (Command.run unformatted arguments : StateM σ _).run before = (code, after) ∧
      (host.Prevented given before → code.number = 1 ∧ host.files after = host.files before ∧
        ∃ printed, host.output after = host.output before ++ printed ∧
          printed.toList <+: given.banner.toList) ∧
      (∀ path, given.output = some path → code.number = 0 →
        ∃ text document compiled, host.textOf before given.source = .ok text ∧
          (TextFormat.ofSource given.source).parse? text = some document ∧
          compile document given.options = .ok compiled ∧
          host.read (host.files after) path = .ok compiled.text ∧
          ∃ target, host.place? (host.files after) path = some target ∧
            host.entry? (host.files after) target = some (.file compiled.text) ∧
            ∀ place, place ≠ target →
              host.entry? (host.files after) place = host.entry? (host.files before) place ∨
              host.entry? (host.files before) place = none ∧
                host.entry? (host.files after) place = some .directory ∧
                ∃ directory ∈ enclosingPaths path, host.place? (host.files after) directory = some place) := by
  obtain ⟨between, files, output, rest⟩ := host.generate_run given before
  unfold Command.run
  simp only [asked]
  cases prepared : host.preparation given before with
  | error failure =>
    rw [prepared] at rest
    obtain ⟨after, reported, files', -, output'⟩ := host.report_run failure.message between
    refine ⟨.failure, after, ?_, ?_, ?_⟩
    · rw [run_bind_of rest]
      dsimp only
      rw [run_bind_of reported]
      rfl
    · intro _
      exact ⟨rfl, files'.trans files, given.banner, output'.trans output, List.prefix_rfl⟩
    · intro path _ succeeded
      cases succeeded
  | ok compiled =>
    rw [prepared] at rest
    obtain ⟨start, rest⟩ := rest
    have unprevented : ¬host.Prevented given before := by
      intro prevented
      obtain ⟨failure, failed⟩ := prevented.fails
      rw [prepared] at failed
      cases failed
    rcases delivered : (deliver given.source start compiled.text given.output : StateM σ _).run
      between with ⟨result, after⟩
    rw [delivered] at rest
    rw [run_bind_of rest]
    cases result with
    | error failure =>
      obtain ⟨later, reported, -⟩ := host.report_run failure.message after
      refine ⟨.failure, later, ?_, fun prevented => absurd prevented unprevented, ?_⟩
      · dsimp only
        rw [run_bind_of reported]
        rfl
      · intro path _ succeeded
        cases succeeded
    | ok _ =>
      refine ⟨.success, after, rfl, fun prevented => absurd prevented unprevented, ?_⟩
      intro path toFile _
      obtain ⟨made, -⟩ := View.preparation_ok prepared
      obtain ⟨text, document, read, parsed, compiles⟩ := View.compiledOf_ok made
      rw [toFile] at delivered
      obtain ⟨enclosed, making, ⟨target, put⟩, holds⟩ :=
        host.deliver_run given.source start compiled.text path between after delivered
      rw [files] at making
      refine ⟨text, document, compiled, read, parsed, compiles, holds, target,
        put.paths path target put.leads, put.put, ?_⟩
      intro place apart
      rw [put.others place apart]
      rcases making.entry? place with same | ⟨none, directory, path, asked, leads⟩
      · exact .inl same
      · exact .inr ⟨none, directory, path, asked, put.paths path place leads⟩

end Surroundings

/-- A directory with a document in it. -/
def documentSession : Session where
  tree := ⟨[(["api.json"], .file ("\x7b\"swagger\": \"2.0\", \"paths\": \x7b\x7d, " ++
    "\"definitions\": \x7b\"Id\": \x7b\"type\": \"string\"\x7d\x7d\x7d"))]⟩
  directory := []

/-- One run that writes to a file in a directory that is not there, and one that cannot read. -/
theorem run_generate_documentSession :
    (∃ code after document compiled, (Command.run unformatted ["-o", "out/types.ts", "api.json"] :
        StateM Session _).run documentSession = (code, after) ∧ code.number = 0 ∧
      compile document {} = .ok compiled ∧
      after.tree.read after.directory "out/types.ts" = .ok compiled.text) ∧
    (∃ code after, (Command.run unformatted ["-o", "out/types.ts", "missing.json"] :
        StateM Session _).run documentSession = (code, after) ∧ code.number = 1 ∧
      after.tree = documentSession.tree) := by
  constructor
  · have asked : Request.ofArguments ["-o", "out/types.ts", "api.json"] =
        .ok (.generate { input := "api.json", output := some "out/types.ts" }) := rfl
    obtain ⟨code, after, run, -, succeeds⟩ := Session.surroundings.run_generate asked documentSession
    have ended : ((Command.run unformatted ["-o", "out/types.ts", "api.json"] :
        StateM Session _).run documentSession).1.number = 0 := by
      decide +kernel
    rw [run] at ended
    obtain ⟨text, document, compiled, read, parsed, compiles, holds, -⟩ :=
      succeeds "out/types.ts" rfl ended
    exact ⟨code, after, document, compiled, run, ended, compiles, holds⟩
  · have asked : Request.ofArguments ["-o", "out/types.ts", "missing.json"] =
        .ok (.generate { input := "missing.json", output := some "out/types.ts" }) := rfl
    obtain ⟨code, after, run, prevented, -⟩ :=
      Session.surroundings.run_generate asked documentSession
    obtain ⟨failed, files, -⟩ := prevented (.unreadable .notFound rfl)
    exact ⟨code, after, run, failed, congrArg Prod.fst files⟩

end ApiTypes
