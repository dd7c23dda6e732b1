import Evomark.Json.Reader
import Evomark.Exec.Synthesis
/-!
# Rules of commands

An `ExecRule` says what a command does when it is executed, given the command and, in an
assignment, the host that is about to be bound. There are six built-in rules and some that a
toolchain can add. `ExecRule.run` gives the command as it stands afterwards, the host, and the
state.
-/

namespace Evomark

/-- Why a pass cannot go on. -/
inductive ExecError
  /-- A variable is used that no assignment has bound in this pass. -/
  | undefinedVariable (name : String)
  /-- A command has no rule. -/
  | unknownRule (name : String)
  /-- An assignment has no command. -/
  | malformedAssignment (name : String)
  /-- A node is no command. -/
  | unexpectedNode (kind : Kind)
  deriving DecidableEq, Repr

/-- The wording of an error. -/
def ExecError.message : ExecError → String
  | undefinedVariable name => "Undefined variable %" ++ name
  | unknownRule name => "Cannot find rule " ++ name
  | malformedAssignment name => "Assignment to %" ++ name ++ " has no command"
  | unexpectedNode kind => "Unexpected " ++ kind.name ++ " node in command list"

/-- What a command does. -/
inductive ExecRule
  /-- Assigns the text of the body. -/
  | assign
  /-- Keeps the value the name has, in this pass or saved; else assigns the text of the body and
  saves it. -/
  | init
  /-- Saves the variables named in the body. -/
  | save
  /-- The text of the body in upper case, cached. -/
  | upper
  /-- Assigns the JSON value the body denotes. -/
  | json
  /-- Ends the pass while a variable named in the body has no value. -/
  | require
  /-- Queues a warning. -/
  | warn (message : String)
  /-- Queues a warning and ends the pass. -/
  | fatal (message : String)
  /-- Ends the pass. -/
  | halt
  /-- Fails. -/
  | fail (cause : ExecError)
  /-- Provides the content of an assignment; `caller` goes into its hash. -/
  | provide (caller : String) (provision : Provision)

/-- A command after its execution, with the host of its assignment. -/
structure Executed where
  command : Node
  host : Option Host
  state : ExecState

namespace ExecRule

/-- What stands in the first body of a command. -/
def bodyItems (command : Node) : List Node := (command.firstBody?.map (·.children)).getD []

/-- A host that holds the text of the body. -/
def storeText (command : Node) (h : Host) (s : ExecState) : Host × ExecState :=
  let (text, dependencies, s) := synthesize s (bodyItems command)
  (({ h with type := .str, dependencies }).setContent (text.map .string), s)

/-- A command with the literal of its result in place of earlier ones. -/
def attachResult (command : Node) (text : String) : Node :=
  command.withChildren <|
    command.children.filter (·.kind != .literal) ++ [.leaf { kind := .literal, content := text }]

/-- `init` for a name without a binding or a usable saved value. -/
def initText (command : Node) (h : Host) (s : ExecState) : Host × ExecState :=
  let (h, s) := storeText command h s
  if h.defined then s.saveHost h else (h, s)

/-- `init` in an assignment. -/
def runInit (command : Node) (h : Host) (s : ExecState) : Host × ExecState :=
  match s.bound? h.name with
  | some id =>
    let type := ((s.host? id).map (·.type)).getD h.type
    let (value, s) := s.look id
    (({ h with type, dependencies := [some id] }).setContent value, s)
  | none =>
    match s.saved.get? h.name with
    | none => initText command h s
    | some saved =>
      match saved.decode h.name with
      | .ok value => (({ h with type := saved.type }).setContent (some value), s)
      | .error e => initText command h (s.warn e.message)

/-- `save` of one name. -/
def saveName (s : ExecState) (name : String) : ExecState :=
  match s.bound? name with
  | some id => s.saveBound id
  | none => s.warn (ExecState.undefinedWarning name)

/-- The input of `upper`: the text, and the position of the step as a salt. -/
def upperInput (text : String) (position : Nat) : Json :=
  .object [("cmd_pos", .int position), ("text", .string text)]

/-- `upper` outside an assignment: the result goes through the cache and is attached to the
command. -/
def attachUpper (command : Node) (input : Json) (s : ExecState) : Node × ExecState :=
  let hash := hashOf input "upper"
  let found := (Deferred.mk input (some hash) .uppercaseText).eval s.cache
  let s := s.noteLookup found
  match found.value with
  | some (.string text) => (attachResult command text, s)
  | _ => (command, s)

/-- The names among `names` that have no value, each looked at. -/
def missingNames (s : ExecState) : List String → List String × ExecState
  | [] => ([], s)
  | name :: rest =>
    match s.bound? name with
    | none =>
      let (missing, s) := missingNames s rest
      (name :: missing, s)
    | some id =>
      let (_, s) := s.look id
      let defined := s.isDefined id
      let (missing, s) := missingNames s rest
      (if defined then missing else name :: missing, s)

/-- `require` of some names. -/
def runRequire (s : ExecState) (names : List String) : ExecState :=
  let (missing, s) := missingNames s names
  if missing.isEmpty then s
  else s.fatal ("Waiting for required variables: " ++ String.intercalate ", " missing)

/-- Executes a command, with the host of its assignment if it stands in one. -/
def run (rule : ExecRule) (command : Node) (host : Option Host) (s : ExecState) :
    Except ExecError Executed :=
  match rule with
  | assign =>
    match host with
    | none => .ok ⟨command, none, s⟩
    | some h =>
      let (h, s) := storeText command h s
      .ok ⟨command, some h, s⟩
  | init =>
    match host with
    | none => .ok ⟨command, none, s⟩
    | some h =>
      let (h, s) := runInit command h s
      .ok ⟨command, some h, s⟩
  | save => .ok ⟨command, host, (usedNames (bodyItems command)).foldl saveName s⟩
  | upper =>
    match synthesize s (bodyItems command) with
    | (none, _, s) => .ok ⟨command, host, s⟩
    | (some text, dependencies, s) =>
      let input := upperInput text s.position
      match host with
      | some h =>
        let d : Deferred := ⟨input, some (hashOf input "upper"), .uppercaseText⟩
        .ok ⟨command, some (({ h with type := .str, dependencies }).setDeferred d), s⟩
      | none =>
        let (command, s) := attachUpper command input s
        .ok ⟨command, none, s⟩
  | json =>
    match synthesize s (bodyItems command) with
    | (none, _, s) => .ok ⟨command, host, s⟩
    | (some text, dependencies, s) =>
      match Json.read text with
      | .ok value =>
        .ok ⟨command,
          host.map fun h => ({ h with type := .obj, dependencies }).setContent (some value), s⟩
      | .error e => .ok ⟨command, host, s.warn ("Malformed JSON: " ++ e.message)⟩
  | require => .ok ⟨command, host, runRequire s (usedNames (bodyItems command))⟩
  | warn message => .ok ⟨command, host, s.warn message⟩
  | fatal message => .ok ⟨command, host, s.fatal message⟩
  | halt => .ok ⟨command, host, { s with halted := true }⟩
  | fail cause => .error cause
  | provide caller provision =>
    let input : Json := .object [("cmd_pos", .int s.position)]
    .ok ⟨command, host.map fun h => h.provide provision input (hashOf input caller), s⟩

end ExecRule

end Evomark
