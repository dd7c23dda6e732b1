/-!
# Arguments

`Invocation.ofArguments` reads the arguments of a command line: one of the commands `parse`,
`fmt`, `exec` and `list-rules` with its options and, but for the last, a path. Options may stand
before and behind the path, each at most once; after two hyphens everything is a path. An option
that takes a value has it as the next argument or after an equals sign, or for a letter right
behind it. `--config` may be given before the command or behind it, where it wins.
-/

namespace Evomark.CommandLine

/-- How a document is shown after execution. -/
inductive Format
  | tree
  | source
  deriving DecidableEq, Repr

/-- What to do. -/
inductive Command
  | parse (path : String)
  | format (path : String) (check : Bool)
  | exec (path : String) (stateFile : Option String) (persist : Bool) (format : Format)
  | listRules
  deriving DecidableEq, Repr

/-- A command, and the file of settings to use. -/
structure Invocation where
  config : Option String
  command : Command
  deriving DecidableEq, Repr

/-- Why arguments are no invocation. -/
inductive Refusal
  /-- They are not well formed. -/
  | usage
  /-- They ask for help. -/
  | help
  /-- They ask for the version. -/
  | version
  deriving DecidableEq, Repr

/-! ## Options -/

/-- What an option does. -/
inductive Effect
  /-- It is given or not. -/
  | switch
  /-- It has a value; of given ones, if there are any. -/
  | value (allowed : List String)
  /-- It ends the reading. -/
  | refuse (why : Refusal)
  deriving DecidableEq, Repr

/-- An option. -/
structure Flag where
  name : String
  letter : Option Char
  effect : Effect

/-- What may be given at a place of the command line: options, so many paths, and commands. -/
structure Level where
  flags : List Flag
  paths : Nat
  commands : List String

/-- What has been given. -/
structure Given where
  /-- Options with their values. -/
  values : List (String × String) := []
  paths : List String := []
  /-- A command and the arguments behind it. -/
  command : Option (String × List String) := none
  deriving DecidableEq, Repr

namespace Given

/-- The option has been given. -/
def has (given : Given) (name : String) : Bool := given.values.any (·.1 == name)

/-- The value of an option. -/
def value? (given : Given) (name : String) : Option String := given.values.lookup name

/-- One more option with its value. -/
def addValue (given : Given) (name value : String) (allowed : List String) : Except Refusal Given :=
  if given.has name || !(allowed.isEmpty || allowed.contains value) then .error .usage
  else .ok { given with values := given.values ++ [(name, value)] }

/-- More paths, as many as there may be. -/
def addPaths (given : Given) (level : Level) (paths : List String) : Except Refusal Given :=
  if level.paths < given.paths.length + paths.length then .error .usage
  else .ok { given with paths := given.paths ++ paths }

end Given

/-- An argument that is no value: hyphens and something after them, or two hyphens. -/
def looksLikeFlag (arg : String) : Bool :=
  match arg.toList with
  | '-' :: _ :: _ => true
  | _ => false

/-- An option as it is written, with the value attached to it. -/
inductive Written
  | long (name : String) (attached : Option String)
  | short (letter : Char) (attached : Option String)
  /-- The mark after which all arguments are paths. -/
  | separator
  | word
  deriving DecidableEq, Repr

/-- The parts of an argument. -/
def Written.of (arg : String) : Written :=
  match arg.toList with
  | ['-', '-'] => separator
  | '-' :: '-' :: cs =>
    let name := String.ofList (cs.takeWhile (· != '='))
    match cs.dropWhile (· != '=') with
    | _ :: value => long name (some (String.ofList value))
    | [] => long name none
  | '-' :: letter :: '=' :: value => short letter (some (String.ofList value))
  | ['-', letter] => short letter none
  | '-' :: letter :: value => short letter (some (String.ofList value))
  | _ => word

/-- The option an argument names, and the value attached to it. -/
def Level.flag? (level : Level) : Written → Option (Flag × Option String)
  | .long name attached => (level.flags.find? (·.name == name)).map (·, attached)
  | .short letter attached => (level.flags.find? (·.letter == some letter)).map (·, attached)
  | _ => none

/-- Reads arguments up to a command, or all. -/
def Level.read (level : Level) : List String → Given → Except Refusal Given
  | [], given => .ok given
  | arg :: args, given =>
    match Written.of arg with
    | .separator => given.addPaths level args
    | .word =>
      if level.commands.isEmpty then (given.addPaths level [arg]).bind (level.read args)
      else if level.commands.contains arg then .ok { given with command := some (arg, args) }
      else .error .usage
    | written =>
      match level.flag? written with
      | none => .error .usage
      | some (⟨_, letter, .refuse why⟩, attached) =>
        .error (if attached.isSome && letter.isNone then .usage else why)
      | some (⟨name, _, .switch⟩, attached) =>
        if attached.isSome then .error .usage
        else (given.addValue name "" []).bind (level.read args)
      | some (⟨name, _, .value allowed⟩, some value) =>
        (given.addValue name value allowed).bind (level.read args)
      | some (⟨name, _, .value allowed⟩, none) =>
        match args with
        | [] => .error .usage
        | value :: args =>
          if looksLikeFlag value then .error .usage
          else (given.addValue name value allowed).bind (level.read args)

/-! ## Commands -/

/-- The file of settings. -/
def configFlag : Flag := ⟨"config", none, .value []⟩

/-- Asks for help. -/
def helpFlag : Flag := ⟨"help", some 'h', .refuse .help⟩

/-- What may be given before the command. -/
def topLevel : Level where
  flags := [configFlag, helpFlag, ⟨"version", some 'V', .refuse .version⟩]
  paths := 0
  commands := ["parse", "fmt", "exec", "list-rules", "help"]

/-- What may be given behind a command. -/
def commandLevel (name : String) : Level where
  flags :=
    configFlag :: helpFlag ::
      if name = "fmt" then [⟨"check", none, .switch⟩]
      else if name = "exec" then
        [⟨"state", none, .value []⟩, ⟨"no-persist", none, .switch⟩,
          ⟨"format", some 'f', .value ["tree", "source"]⟩]
      else []
  paths := if name = "list-rules" then 0 else 1
  commands := []

/-- The command of a name with what was given for it. -/
def Command.ofGiven (name : String) (given : Given) : Except Refusal Command :=
  match name, given.paths with
  | "list-rules", _ => .ok .listRules
  | "parse", [path] => .ok (.parse path)
  | "fmt", [path] => .ok (.format path (given.has "check"))
  | "exec", [path] =>
    .ok <| .exec path (given.value? "state") (!given.has "no-persist")
      (if given.value? "format" = some "source" then .source else .tree)
  | _, _ => .error .usage

/-- What help is asked for: all commands, or one. -/
def readHelp : List String → Refusal
  | [] => .help
  | [name] => if topLevel.commands.contains name then .help else .usage
  | _ => .usage

/-- The invocation that arguments denote. -/
def Invocation.ofArguments (args : List String) : Except Refusal Invocation := do
  let top ← topLevel.read args {}
  match top.command with
  | none => throw .usage
  | some ("help", args) => throw (readHelp args)
  | some (name, args) =>
    let given ← (commandLevel name).read args {}
    let command ← Command.ofGiven name given
    return ⟨given.value? "config" <|> top.value? "config", command⟩

end Evomark.CommandLine
