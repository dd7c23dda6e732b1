import Evomark.Markup.Reading
import Evomark.Exec.Pass
/-!
# Rules by name

A `Registry` gives names their rules: how bodies of functions and of commands are read, and what
commands do when they are executed. Each table takes a name once. It also holds the namespaces of
settings that every document has from the start.
-/

namespace Evomark

/-- The tables of a registry. -/
inductive RuleTable
  | function
  | command
  | exec
  deriving DecidableEq, Repr

/-- The name of a table. -/
def RuleTable.name : RuleTable → String
  | function => "function"
  | command => "command"
  | exec => "exec"

/-- A table has a rule of this name already. -/
structure DuplicateRule where
  table : RuleTable
  name : String
  deriving DecidableEq, Repr

/-- The wording of the error. -/
def DuplicateRule.message (e : DuplicateRule) : String :=
  "Rule with name " ++ e.name ++ " already in " ++ e.table.name ++ " rules"

/-- Rules by name. -/
structure Registry where
  functions : Table BodyRule
  commands : Table BodyRule := []
  execution : Table ExecRule := []
  /-- The settings a document starts with. -/
  namespaces : Table Json := []

namespace Registry

/-- The registry with the rule `box` only. -/
def minimal : Registry := { functions := [("box", .box)] }

/-- The namespace of `#config` blocks. -/
def settingsSpace : String := "env"

/-- The registry of all built-in rules. -/
def standard : Registry where
  functions := Table.ofList [("box", .box), ("code", .code), ("config", .config settingsSpace)]
  commands := Table.ofList <|
    ["t", "init", "save", "upper", "json", "require"].map fun name => (name, BodyRule.literal)
  execution := Table.ofList
    [("t", .assign), ("init", .init), ("save", .save), ("upper", .upper), ("json", .json),
      ("require", .require)]
  namespaces := [(settingsSpace, .object [])]

/-- The rules of bodies. -/
def grammar (r : Registry) : Grammar := ⟨r.functions, r.commands⟩

/-- A table with one more rule, unless it has one of that name. -/
def addTo {α : Type} (table : Table α) (which : RuleTable) (name : String) (rule : α) :
    Except DuplicateRule (Table α) :=
  if (table.get? name).isSome then .error ⟨which, name⟩ else .ok (table.insert name rule)

/-- The registry with one more function rule. -/
def addFunction (r : Registry) (name : String) (rule : BodyRule) : Except DuplicateRule Registry :=
  (addTo r.functions .function name rule).map fun functions => { r with functions }

/-- The registry with one more command rule. -/
def addCommand (r : Registry) (name : String) (rule : BodyRule) : Except DuplicateRule Registry :=
  (addTo r.commands .command name rule).map fun commands => { r with commands }

/-- The registry with one more rule for executing commands. -/
def addExec (r : Registry) (name : String) (rule : ExecRule) : Except DuplicateRule Registry :=
  (addTo r.execution .exec name rule).map fun execution => { r with execution }

/-- The registry with a namespace, empty unless there is one of that name. -/
def addNamespace (r : Registry) (name : String) : Registry :=
  if (r.namespaces.get? name).isSome then r
  else { r with namespaces := r.namespaces.insert name (.object []) }

/-- There is a rule for executing commands of this name. -/
def hasExec (r : Registry) (name : String) : Bool := (r.execution.get? name).isSome

/-- The document of a source. -/
def parse (r : Registry) (source : String) : Markup.Parsed :=
  Markup.parse r.grammar r.namespaces source

/-- A pass over a document. -/
def exec (r : Registry) (document : Node) (ctx : Context) : Pass :=
  Evomark.exec r.execution document ctx

end Registry

end Evomark
