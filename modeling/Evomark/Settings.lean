import Evomark.Decimal.Style
import Evomark.Settings.Tree
import Evomark.Toml.Reader
/-!
# Settings

What a user can set: how documents are formatted, where the state of execution is kept, and what
is logged. `Settings.load` lays files over the defaults and single values over all, and reads
each field from the resulting tree. A field takes values of other types where these have an
obvious text or truth value.
-/

namespace Evomark

/-- How documents are formatted. -/
structure FormattingSettings where
  indent : String
  deriving DecidableEq, Repr

/-- How documents are executed. -/
structure ExecSettings where
  stateFile : String
  persist : Bool
  deriving DecidableEq, Repr

/-- The settings. -/
structure Settings where
  formatting : FormattingSettings
  exec : ExecSettings
  logLevel : String
  deriving DecidableEq, Repr

/-- A file that may be missing. -/
structure SettingsFile where
  content : Option String
  required : Bool

namespace Settings

/-- Why there are no settings. -/
inductive Error
  | missingFile
  | malformedFile
  /-- A text that is no path to a setting. -/
  | badPath (text : String)
  | badValue (field : String)
  deriving DecidableEq, Repr

/-- The wording of an error. -/
def Error.message : Error → String
  | missingFile => "configuration file not found"
  | malformedFile => "configuration file is not valid TOML"
  | badPath text => "invalid configuration key \"" ++ text ++ "\""
  | badValue field => "missing or invalid configuration value " ++ field

/-- The settings where nothing else is said. -/
def defaults : Settings := ⟨⟨"  "⟩, ⟨".evomark-state.json", true⟩, "warn"⟩

/-- Settings as a tree. -/
def toTree (s : Settings) : Setting :=
  .group
    [("exec", .group [("persist", .truth s.exec.persist), ("state_file", .text s.exec.stateFile)]),
      ("formatting", .group [("indent_string", .text s.formatting.indent)]),
      ("logging", .group [("level", .text s.logLevel)])]

/-! ## Fields -/

/-- The text of a number. -/
def realText : Real → String
  | .finite x => String.ofList (FloatStyle.text.write x)
  | .infinite negative => if negative then "-inf" else "inf"
  | .undefined => "NaN"

/-- A setting as a text. -/
def readText? : Setting → Option String
  | .text s => some s
  | .truth b => some (if b then "true" else "false")
  | .integer n => some (toString n)
  | .real x => some (realText x)
  | _ => none

/-- The truth value of a text, in any case. -/
def truthOfText? (s : String) : Option Bool :=
  let s := s.toLower
  if ["1", "true", "on", "yes"].contains s then some true
  else if ["0", "false", "off", "no"].contains s then some false
  else none

/-- A setting as a truth value. A number is true if it is not zero. -/
def readTruth? : Setting → Option Bool
  | .truth b => some b
  | .integer n => some (n != 0)
  | .real (.finite x) => some !x.isZero
  | .real _ => some true
  | .text s => truthOfText? s
  | _ => none

/-- The values of named fields: the entries of a group, or the items of a list in order. -/
def readFields? (names : List String) : Setting → Option (List Setting)
  | .group entries => names.mapM (Table.get? · entries)
  | .list items => if names.length ≤ items.length then some (items.take names.length) else none
  | _ => none

/-- The settings in a tree. -/
def ofTree (tree : Setting) : Except Error Settings := do
  let part (name : String) (names : List String) : Except Error (List Setting) :=
    match (tree.get? name).bind (readFields? names) with
    | some values => .ok values
    | none => .error (.badValue name)
  let field {α : Type} (name : String) (value : Option α) : Except Error α :=
    match value with
    | some x => .ok x
    | none => .error (.badValue name)
  match ← part "formatting" ["indent_string"], ← part "exec" ["state_file", "persist"],
      ← part "logging" ["level"] with
  | [indent], [stateFile, persist], [level] =>
    return {
      formatting := ⟨← field "indent_string" (readText? indent)⟩
      exec := ⟨← field "state_file" (readText? stateFile), ← field "persist" (readTruth? persist)⟩
      logLevel := ← field "level" (readText? level) }
  | _, _, _ => throw (.badValue "")

/-! ## Layers -/

/-- The content of a file without a byte order mark. -/
def withoutMark (content : String) : String :=
  String.ofList (Toml.skipByteOrderMark content.toList)

/-- `tree` with a file over it. One that is missing adds nothing, unless it is required. -/
def addFile (file : SettingsFile) (tree : Setting) : Except Error Setting :=
  match file.content with
  | none => if file.required then .error .missingFile else .ok tree
  | some content =>
    match Toml.read? (withoutMark content) with
    | some table => .ok (tree.addLayer (Setting.ofToml table))
    | none => .error .malformedFile

/-- `tree` with files over it, one after the other. -/
def addFiles : List SettingsFile → Setting → Except Error Setting
  | [], tree => .ok tree
  | file :: files, tree => do addFiles files (← addFile file tree)

/-- `tree` with single values over it, one after the other. -/
def addValues : List (String × Setting) → Setting → Except Error Setting
  | [], tree => .ok tree
  | (text, value) :: values, tree =>
    match SettingPath.ofText? text with
    | some path => addValues values (Setting.set value path tree)
    | none => .error (.badPath text)

/-- The settings of files and single values over the defaults. -/
def load (files : List SettingsFile) (values : List (String × Setting)) : Except Error Settings := do
  ofTree (← addValues values (← addFiles files defaults.toTree))

end Settings

end Evomark
