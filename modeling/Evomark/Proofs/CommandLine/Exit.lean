import Evomark.Proofs.CommandLine.Look
/-!
# How runs of the command line exit

A run over the files of a directory exits with code 0 in exactly the cases that `Succeeds` lists
(`exits_with_zero`). Among the commands that read a document only `parse` asks whether the document
was read to its end. `fmt` and `exec` also succeed on a document whose reading stopped, and then print, execute
and keep what was read before that place (`succeeds_unfinished`).

The equations `code_runParse` to `code_runExec` say of each command when its report has code 0.
-/

namespace Evomark.CommandLine

open Directory (access shows_access)

variable {d : Directory}

/-! ## Files of a directory -/

theorem run_loadSettings (d : Directory) (config : Option String) :
    StateT.run (loadSettings access config) d = (settingsIn d config, d) := shows_access.run_loadSettings d config

theorem run_loadContext (d : Directory) (stateFile : String) :
    StateT.run (loadContext access stateFile) d = (contextIn d stateFile, d) :=
  shows_access.run_loadContext d stateFile

theorem run_onSource (d : Directory) (path : String) (go : String → StateM Directory Report) :
    StateT.run (onSource access path go) d =
      match d.read path with
      | .ok source => StateT.run (go source) d
      | .error e => (.failure ("Error reading file: " ++ e.message), d) :=
  shows_access.run_onSource d path go

theorem run_of_settings {args : List String} {invocation : Invocation} {settings : Settings}
    (hargs : Invocation.ofArguments args = .ok invocation)
    (hsettings : settingsIn d invocation.config = .ok settings) :
    StateT.run (run access args) d = StateT.run (runCommand access settings invocation.command) d :=
  shows_access.run_of_settings d hargs hsettings

theorem run_write (d : Directory) (path text : String) :
    StateT.run (access.write path text) d =
      match d.write path text with
      | .ok d' => (.ok (), d')
      | .error e => (.error e, d) := by
  show StateT.run (get >>= _) d = _
  rw [run_bind_of (StateT.run_get d)]
  cases d.write path text <;> rfl

theorem code_onSource {path : String} {go : String → StateM Directory Report} :
    (StateT.run (onSource access path go) d).1.code = 0 ↔
      ∃ source, d.read path = .ok source ∧ (StateT.run (go source) d).1.code = 0 := by
  rw [run_onSource]
  cases d.read path with
  | ok source => simp
  | error e => simp [Report.failure]

/-! ## Commands -/

section

variable {t : Toolchain} {source : String}

/-- The tree of a document is a success if the document was read to its end. -/
theorem code_runParse : (runParse t source).code = 0 ↔ (t.parse source).complete = true := by
  unfold runParse
  simp only
  split <;> simp_all

/-- A document is formatted however much of it was read. -/
theorem code_runFormat {path : String} {check : Bool} :
    (runFormat t path check source).code = 0 ↔ (check = true → t.format source ++ "\n" = source) := by
  unfold runFormat
  cases check with
  | false => simp
  | true =>
    simp only [Bool.not_true, Bool.false_eq_true, if_false, true_implies]
    split <;> simp_all [Report.failure]

/-- The pass has come to an end, or to a halt. -/
def Ended (pass : Pass) : Prop := ∀ cause, pass.outcome ≠ .failed cause

/-- A document is executed however much of it was read. -/
theorem code_runExec {stateFile : String} {persist : Bool} {format : Format} :
    (StateT.run (runExec access t stateFile persist format source) d).1.code = 0 ↔
      ∃ ctx, contextIn d stateFile = .ok ctx ∧
        Ended (t.exec (t.parse source).document ctx) ∧
        (persist = true → ∃ d', d.write stateFile
          (t.exec (t.parse source).document ctx).state.context.fileText = .ok d') := by
  rw [runExec, run_bind_of (run_loadContext d stateFile)]
  cases contextIn d stateFile with
  | error e => simp [Report.failure]
  | ok ctx =>
    simp only [Except.ok.injEq, exists_eq_left', Ended]
    generalize t.exec (t.parse source).document ctx = pass
    split
    · rename_i cause hfailed
      simp [Report.failure, hfailed]
    · rename_i hended
      cases persist with
      | false => exact iff_of_true rfl ⟨hended, fun h => absurd h (by decide)⟩
      | true =>
        simp only [Bool.not_true, Bool.false_eq_true, if_false, true_implies]
        have hwrite := run_write d stateFile pass.state.context.fileText
        cases hw : d.write stateFile pass.state.context.fileText with
        | ok d' =>
          rw [hw] at hwrite
          rw [run_bind_of hwrite]
          exact iff_of_true rfl ⟨hended, d', rfl⟩
        | error e =>
          rw [hw] at hwrite
          rw [run_bind_of hwrite]
          exact iff_of_false Nat.one_ne_zero fun ⟨_, _, h⟩ => nomatch h

end

/-- What it takes that a command succeeds with some settings over the files of a directory. -/
def Succeeds (d : Directory) (settings : Settings) : Command → Prop
  | .parse path => ∃ source, d.read path = .ok source ∧
      ((runCommand.toolchain settings).parse source).complete = true
  | .format path check => ∃ source, d.read path = .ok source ∧
      (check = true → (runCommand.toolchain settings).format source ++ "\n" = source)
  | .exec path stateFile persist _ => ∃ source, d.read path = .ok source ∧
      let t := runCommand.toolchain settings
      let file := stateFile.getD settings.exec.stateFile
      ∃ ctx, contextIn d file = .ok ctx ∧ Ended (t.exec (t.parse source).document ctx) ∧
        ((settings.exec.persist && persist) = true → ∃ d', d.write file
          (t.exec (t.parse source).document ctx).state.context.fileText = .ok d')
  | .listRules => True

theorem code_runCommand {settings : Settings} {command : Command} :
    (StateT.run (runCommand access settings command) d).1.code = 0 ↔ Succeeds d settings command := by
  cases command with
  | parse path =>
    refine code_onSource.trans (exists_congr fun source => and_congr_right fun _ => ?_)
    exact code_runParse
  | format path check =>
    refine code_onSource.trans (exists_congr fun source => and_congr_right fun _ => ?_)
    exact code_runFormat
  | exec path stateFile persist format =>
    refine code_onSource.trans (exists_congr fun source => and_congr_right fun _ => ?_)
    exact code_runExec
  | listRules => exact iff_of_true rfl trivial

/-- A run exits with code 0 exactly if it only shows how the program is used, or has its settings and its
command succeeds. -/
theorem exits_with_zero (d : Directory) (args : List String) :
    (StateT.run (run access args) d).1.code = 0 ↔
      match Invocation.ofArguments args with
      | .error refusal => refusal ≠ .usage
      | .ok invocation => ∃ settings, settingsIn d invocation.config = .ok settings ∧
          Succeeds d settings invocation.command := by
  cases hargs : Invocation.ofArguments args with
  | error refusal =>
    rw [run, hargs]
    cases refusal with
    | usage => exact iff_of_false (show ¬ 2 = 0 by decide) fun h => h rfl
    | help => exact iff_of_true rfl (show Refusal.help ≠ .usage by decide)
    | version => exact iff_of_true rfl (show Refusal.version ≠ .usage by decide)
  | ok invocation =>
    cases hsettings : settingsIn d invocation.config with
    | error e =>
      rw [run, hargs]
      simp only
      rw [run_bind_of (run_loadSettings d invocation.config), hsettings]
      refine iff_of_false Nat.one_ne_zero fun hcan => ?_
      obtain ⟨settings, hok, -⟩ := hcan
      cases hok
    | ok settings =>
      rw [run_of_settings hargs hsettings, code_runCommand]
      refine ⟨fun h => ⟨settings, hsettings, h⟩, fun hcan => ?_⟩
      obtain ⟨settings', hsame, h⟩ := hcan
      obtain rfl := Except.ok.inj (hsettings.symm.trans hsame)
      exact h

/-- A document of which only the first word is read: `fmt` prints that word, and both `fmt` and `exec`
succeed. -/
theorem succeeds_unfinished :
    let source := "intro # note"
    let d : Directory := ⟨[("a", source), ("c", "")]⟩
    (Registry.standard.parse source).complete = false ∧
      StateT.run (run access ["fmt", "--config", "c", "a"]) d = ({ output := "intro\n" }, d) ∧
      (StateT.run (run access ["exec", "--config", "c", "--state", "s", "a"]) d).1.code = 0 := by
  intro source d
  have hsource : d.read "a" = .ok source := by
    rw [Directory.read, d.spot_letter "a" (by decide)]
    rfl
  have hconfig : d.read "c" = .ok "" := by
    rw [Directory.read, d.spot_letter "c" (by decide)]
    rfl
  have habsent : d.isPresent "s" = false := by
    rw [Directory.isPresent, d.spot_letter "s" (by decide)]
    rfl
  have hsettings : settingsIn d (some "c") = .ok Settings.defaults := settingsIn_of_read hconfig
  refine ⟨by decide +kernel, ?_, ?_⟩
  · have hargs : Invocation.ofArguments ["fmt", "--config", "c", "a"] =
        .ok ⟨some "c", .format "a" false⟩ := rfl
    rw [run_of_settings hargs hsettings, runCommand, run_onSource, hsource]
    have hprinted : runFormat (runCommand.toolchain Settings.defaults) "a" false source =
        { output := "intro\n" } := by decide +kernel
    exact congrArg (·, d) hprinted
  · have hargs : Invocation.ofArguments ["exec", "--config", "c", "--state", "s", "a"] =
        .ok ⟨some "c", .exec "a" (some "s") true .tree⟩ := rfl
    have hended : ((runCommand.toolchain Settings.defaults).exec
        ((runCommand.toolchain Settings.defaults).parse source).document {}).outcome = .completed := by
      decide +kernel
    rw [run_of_settings hargs hsettings, code_runCommand]
    refine ⟨source, hsource, {}, contextIn_of_not_isPresent habsent, fun cause hfailed => ?_, fun _ => ?_⟩
    · cases hended.symm.trans hfailed
    · rw [Directory.write, Option.getD_some, d.spot_letter "s" (by decide)]
      exact ⟨_, rfl⟩

end Evomark.CommandLine
