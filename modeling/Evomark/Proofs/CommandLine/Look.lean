import Evomark.CommandLine
/-!
# Looking at files

What a run needs to know of files it looks up without a change. This holds for every access that shows a
directory (`Files.Shows`), whatever else its state may be, and what is found depends on the directory only: the
settings (`settingsIn_eq`), the context (`contextIn_eq`) and the source (`Files.Shows.run_onSource`).
-/

namespace Evomark

/-- The files are those of a directory that the state shows, and looking at them changes nothing. -/
structure Files.Shows {σ : Type} (files : Files (StateM σ)) (view : σ → Directory) : Prop where
  read : ∀ s path, StateT.run (files.read path) s = ((view s).read path, s)
  isPresent : ∀ s path, StateT.run (files.isPresent path) s = ((view s).isPresent path, s)

theorem Directory.shows_access : access.Shows id := ⟨fun _ _ => rfl, fun _ _ => rfl⟩

/-- A path of one part is looked up in the directory itself. -/
theorem Directory.spot_letter (d : Directory) : ∀ path ∈ ["a", "c", "s"], d.spot path = d.locate [path] [] := by
  simp only [List.forall_mem_cons]
  refine ⟨?_, ?_, ?_, List.forall_mem_nil _⟩
  all_goals
    rw [spot, if_neg (by decide +kernel), String.splitOn, if_neg (by decide), String.splitOnAux,
      if_neg (by decide), if_neg (by decide), String.splitOnAux, if_pos (by decide)]
    rfl

namespace CommandLine

open Directory (access)

/-- The settings for a run in a directory. -/
def settingsIn (d : Directory) (config : Option String) : Except Settings.Error Settings :=
  (StateT.run (loadSettings access config) d).1

/-- The context that a state file of a directory gives. -/
def contextIn (d : Directory) (stateFile : String) : Except StateError Context :=
  (StateT.run (loadContext access stateFile) d).1

/-- The text of a settings file, which may be named without its ending. -/
def configIn (d : Directory) (path : String) : Option String :=
  (d.read path).toOption.or (d.read (withEnding path)).toOption

/-- A step whose result is known, in front of another. -/
theorem run_bind_of {σ α β : Type} {step : StateM σ α} {s s' : σ} {a : α} (h : StateT.run step s = (a, s'))
    (next : α → StateM σ β) : StateT.run (step >>= next) s = StateT.run (next a) s' := by
  rw [StateT.run_bind, h]
  rfl

end CommandLine

open CommandLine

namespace Files.Shows

variable {σ : Type} {files : Files (StateM σ)} {view : σ → Directory} (h : files.Shows view) (s : σ)

include h

theorem run_readConfig (path : String) :
    StateT.run (readConfig files path) s = (configIn (view s) path, s) := by
  rw [readConfig, run_bind_of (h.read s path), configIn]
  cases (view s).read path with
  | ok text => rfl
  | error e =>
    show StateT.run (files.read (withEnding path) >>= _) s = _
    rw [run_bind_of (h.read s _)]
    cases (view s).read (withEnding path) <;> rfl

theorem run_loadSettings_eq (config : Option String) :
    StateT.run (loadSettings files config) s =
      (Settings.load [⟨configIn (view s) (config.getD defaultConfig), config.isSome⟩] [], s) := by
  rw [loadSettings, run_bind_of (h.run_readConfig s _)]
  rfl

theorem run_loadContext_eq (stateFile : String) :
    StateT.run (loadContext files stateFile) s =
      (if (view s).isPresent stateFile then
        match (view s).read stateFile with
        | .ok text => (Context.read text).mapError .malformed
        | .error e => .error (.access e)
      else .ok {}, s) := by
  rw [loadContext, run_bind_of (h.isPresent s stateFile)]
  cases (view s).isPresent stateFile with
  | false => rfl
  | true =>
    show StateT.run (files.read stateFile >>= _) s = _
    rw [run_bind_of (h.read s _), if_pos rfl]
    cases (view s).read stateFile <;> rfl

end Files.Shows

namespace CommandLine

open Directory (shows_access)

variable {d : Directory}

/-- The settings are those of the settings file. -/
theorem settingsIn_eq (d : Directory) (config : Option String) :
    settingsIn d config = Settings.load [⟨configIn d (config.getD defaultConfig), config.isSome⟩] [] :=
  congrArg Prod.fst (shows_access.run_loadSettings_eq d config)

/-- The context is that of the state file, or the empty one if there is none. -/
theorem contextIn_eq (d : Directory) (stateFile : String) :
    contextIn d stateFile =
      if d.isPresent stateFile then
        match d.read stateFile with
        | .ok text => (Context.read text).mapError .malformed
        | .error e => .error (.access e)
      else .ok {} :=
  congrArg Prod.fst (shows_access.run_loadContext_eq d stateFile)

/-- The settings are those of the file that is named. -/
theorem settingsIn_of_read {path text : String} (h : d.read path = .ok text) :
    settingsIn d (some path) = Settings.load [⟨some text, true⟩] [] := by
  rw [settingsIn_eq, Option.getD_some, configIn, h]
  rfl

/-- The context is empty if there is no state file. -/
theorem contextIn_of_not_isPresent {file : String} (h : d.isPresent file = false) :
    contextIn d file = .ok {} := by
  rw [contextIn_eq, h]
  rfl

end CommandLine

namespace Files.Shows

variable {σ : Type} {files : Files (StateM σ)} {view : σ → Directory} (h : files.Shows view) (s : σ)

include h

theorem run_loadSettings (config : Option String) :
    StateT.run (loadSettings files config) s = (settingsIn (view s) config, s) := by
  rw [h.run_loadSettings_eq, settingsIn_eq]

theorem run_loadContext (stateFile : String) :
    StateT.run (loadContext files stateFile) s = (contextIn (view s) stateFile, s) := by
  rw [h.run_loadContext_eq, contextIn_eq]

/-- The text of a file is read, or the run fails. -/
theorem run_onSource (path : String) (go : String → StateM σ Report) :
    StateT.run (onSource files path go) s =
      match (view s).read path with
      | .ok source => StateT.run (go source) s
      | .error e => (.failure ("Error reading file: " ++ e.message), s) := by
  rw [onSource, run_bind_of (h.read s path)]
  cases (view s).read path <;> rfl

/-- A run that has its settings carries out its command with them. -/
theorem run_of_settings {args : List String} {invocation : Invocation} {settings : Settings}
    (hargs : Invocation.ofArguments args = .ok invocation)
    (hsettings : settingsIn (view s) invocation.config = .ok settings) :
    StateT.run (run files args) s = StateT.run (runCommand files settings invocation.command) s := by
  rw [run, hargs]
  simp only
  rw [run_bind_of (h.run_loadSettings s invocation.config), hsettings]

end Files.Shows

end Evomark
