import Evomark.CommandLine.Arguments
import Evomark.CommandLine.Files
import Evomark.Exec.StateFile
import Evomark.Settings
import Evomark.Toolchain
/-!
# The command line

`CommandLine.run` carries out one command line with access to files and says what to print and
how to exit. Every command reads its settings first. Only `exec` writes a file, the state file,
and only at its end.
-/

namespace Evomark

/-- Why there is no context to execute with. -/
inductive StateError
  | access (cause : FileError)
  | malformed (cause : Json.Error)

/-- The wording of an error. -/
def StateError.message : StateError → String
  | access cause => "Cannot access state file: " ++ cause.message
  | malformed cause => "Malformed state file: " ++ cause.message

namespace CommandLine

/-- What a run prints, and how it exits. -/
structure Report where
  code : Nat := 0
  output : String := ""
  /-- The lines for the user besides the output. -/
  notes : List String := []
  deriving DecidableEq, Repr

/-- The report of a run that failed. -/
def Report.failure (note : String) : Report := { code := 1, notes := [note] }

/-- The version of the program. -/
def versionText : String := "evomark 0.1.0\n"

/-- The text that shows how the program is used. -/
def helpText : String :=
  "Usage: evomark [--config <FILE>] <COMMAND>\n\nCommands:\n  parse <PATH>\n  fmt <PATH> [--check]\n"
    ++ "  exec <PATH> [--state <FILE>] [--no-persist] [--format <tree|source>]\n  list-rules\n"

/-- The report on arguments that are no invocation. -/
def Refusal.report : Refusal → Report
  | .usage => { code := 2, notes := [helpText] }
  | .help => { output := helpText }
  | .version => { output := versionText }

/-! ## Reading files -/

section

variable {m : Type → Type} [Monad m] (files : Files m)

/-- The file of settings that is read where none is named. -/
def defaultConfig : String := "evomark.toml"

/-- A path with the ending of settings files added to its last part. -/
def withEnding (path : String) : String :=
  String.ofList (path.toList.reverse.dropWhile (· == '/')).reverse ++ ".toml"

/-- The text of a settings file. Where no file has that name, its name with the ending is tried. -/
def readConfig (path : String) : m (Option String) := do
  match ← files.read path with
  | .ok text => return some text
  | .error _ =>
    match ← files.read (withEnding path) with
    | .ok text => return some text
    | .error _ => return none

/-- The settings of an invocation. A file that is named has to be there. -/
def loadSettings (config : Option String) : m (Except Settings.Error Settings) := do
  let content ← readConfig files (config.getD defaultConfig)
  return Settings.load [⟨content, config.isSome⟩] []

/-- The context in a state file; the empty one if there is none. -/
def loadContext (path : String) : m (Except StateError Context) := do
  if ← files.isPresent path then
    match ← files.read path with
    | .ok text => return (Context.read text).mapError .malformed
    | .error e => return .error (.access e)
  else return .ok {}

/-! ## Commands -/

/-- The tree of a document. -/
def runParse (t : Toolchain) (source : String) : Report :=
  let parsed := t.parse source
  let output := parsed.document.outline
  if parsed.complete then { output }
  else { code := 1, output, notes := ["Error: parsing stopped on input no rule could consume"] }

/-- The canonical form of a document, or whether the document has it. -/
def runFormat (t : Toolchain) (path : String) (check : Bool) (source : String) : Report :=
  let formatted := t.format source ++ "\n"
  if !check then { output := formatted }
  else if formatted = source then {}
  else .failure (path ++ " is not formatted")

/-- A document after execution, in some format. -/
def shown (t : Toolchain) (document : Node) : Format → String
  | .tree => document.outline
  | .source => t.print document ++ "\n"

/-- Executes a document. The state is kept if the pass did not fail and `persist` is given. -/
def runExec (t : Toolchain) (stateFile : String) (persist : Bool) (format : Format)
    (source : String) : m Report := do
  match ← loadContext files stateFile with
  | .error e => return .failure ("Error loading state: " ++ e.message)
  | .ok ctx =>
    let pass := t.exec (t.parse source).document ctx
    match pass.outcome with
    | .failed cause => return .failure ("Execution error: " ++ cause.message)
    | _ =>
      let notes := if pass.state.halted then ["Execution halted"] else []
      let report : Report := { output := shown t pass.document format, notes }
      if !persist then return report
      match ← files.write stateFile pass.state.context.fileText with
      | .ok () => return report
      | .error e =>
        return { code := 1, notes := notes ++ ["Error saving state: " ++ (StateError.access e).message] }

/-- The names of all rules. -/
def runListRules (r : Registry) : Report :=
  let lines (sigil : String) (names : List String) : String :=
    String.join (names.map fun name => "  " ++ sigil ++ name ++ "\n")
  { output :=
      "Function rules:\n" ++ lines "#" r.functions.keys ++ "\nCommand rules:\n"
        ++ lines "$" r.commands.keys ++ "\nExec rules:\n" ++ lines "" r.execution.keys }

/-- Carries out a command on the text of the file at `path`. -/
def onSource (path : String) (go : String → m Report) : m Report := do
  match ← files.read path with
  | .ok source => go source
  | .error e => return .failure ("Error reading file: " ++ e.message)

/-- Carries out a command. -/
def runCommand (settings : Settings) : Command → m Report
  | .parse path => onSource files path fun source => return runParse (toolchain settings) source
  | .format path check =>
    onSource files path fun source => return runFormat (toolchain settings) path check source
  | .exec path stateFile persist format =>
    onSource files path <|
      runExec files (toolchain settings) (stateFile.getD settings.exec.stateFile)
        (settings.exec.persist && persist) format
  | .listRules => return runListRules .standard
where
  /-- The toolchain that settings describe. -/
  toolchain (settings : Settings) : Toolchain := { indentUnit := settings.formatting.indent }

/-- Carries out a command line. -/
def run (args : List String) : m Report :=
  match Invocation.ofArguments args with
  | .error refusal => return refusal.report
  | .ok invocation => do
    match ← loadSettings files invocation.config with
    | .error e => return .failure ("Error loading configuration: " ++ e.message)
    | .ok settings => runCommand files settings invocation.command

end

end CommandLine

end Evomark
