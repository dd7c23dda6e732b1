import Evomark.Proofs.CommandLine.Exit
/-!
# What runs of the command line write

A run looks at the files first. It then ends with a report, or writes one file and reports whether that went well
(`exists_ending`), and it writes just when it is an `exec` that is to keep its context and has come to one
(`Keeps`). Which of these it is depends only on the directory that is seen, so that a run that keeps a journal of
its writes (`Journal.access`) does what it does without. So in a sequence of runs, each in the directory that
those before it have left, every run adds to the journal what it keeps and changes nothing else
(`session_keeps`).
-/

namespace Evomark

/-! ## Journals -/

/-- A text that is written to a file. -/
structure FileWrite where
  path : String
  text : String
  deriving DecidableEq, Repr

/-- A directory, and the writes to its files that did not fail, in order. -/
structure Journal where
  directory : Directory
  writes : List FileWrite

namespace Journal

/-- Access to the files of a directory, with a journal of the writes. -/
def access : Files (StateM Journal) where
  read path := do return (← get).directory.read path
  write path text := do
    let j ← get
    match j.directory.write path text with
    | .ok d => set (⟨d, j.writes ++ [⟨path, text⟩]⟩ : Journal); return .ok ()
    | .error e => return .error e
  isPresent path := do return (← get).directory.isPresent path

theorem shows_access : access.Shows Journal.directory := ⟨fun _ _ => rfl, fun _ _ => rfl⟩

theorem run_write (j : Journal) (path text : String) :
    StateT.run (access.write path text) j =
      match j.directory.write path text with
      | .ok d => (.ok (), ⟨d, j.writes ++ [⟨path, text⟩]⟩)
      | .error e => (.error e, j) := by
  show StateT.run (get >>= _) j = _
  rw [CommandLine.run_bind_of (StateT.run_get j)]
  cases j.directory.write path text <;> rfl

end Journal

namespace CommandLine

open Directory (access)

variable {d : Directory}

/-! ## Endings -/

/-- How a run ends once it has looked at the files. -/
inductive Ending
  | report (report : Report)
  /-- A file is written; the report depends on whether that succeeds. -/
  | write (w : FileWrite) (kept : Report) (lost : FileError → Report)

namespace Ending

/-- Carries out an ending. -/
def carryOut {m : Type → Type} [Monad m] (files : Files m) : Ending → m Report
  | report r => return r
  | write w kept lost => do
    match ← files.write w.path w.text with
    | .ok () => return kept
    | .error e => return lost e

/-- Wherever the directory is seen, the action comes down to the ending. -/
def Of (d : Directory) (act : (σ : Type) → Files (StateM σ) → StateM σ Report) (e : Ending) : Prop :=
  ∀ {σ : Type} {files : Files (StateM σ)} {view : σ → Directory}, files.Shows view →
    ∀ s, view s = d → StateT.run (act σ files) s = StateT.run (e.carryOut files) s

/-- The ending writes what is to be kept, and only then; it is a success if that can be written. -/
def Fits (keeps : FileWrite → Prop) : Ending → Prop
  | report _ => ∀ w, ¬ keeps w
  | write w kept _ => (∀ w', keeps w' ↔ w' = w) ∧ kept.code = 0

end Ending

/-! ## What is kept -/

/-- The context is that of the state file, or the empty one if there is no such file. -/
def Resumes (d : Directory) (file : String) (ctx : Context) : Prop :=
  d.isPresent file = false ∧ ctx = {} ∨
    d.isPresent file = true ∧ ∃ text, d.read file = .ok text ∧ Context.read text = .ok ctx

theorem contextIn_eq_ok {file : String} {ctx : Context} : contextIn d file = .ok ctx ↔ Resumes d file ctx := by
  rw [contextIn_eq, Resumes]
  cases d.isPresent file with
  | false => simp [eq_comm]
  | true =>
    cases d.read file with
    | error e => simp
    | ok text =>
      have hread : (Context.read text).mapError StateError.malformed = .ok ctx ↔ Context.read text = .ok ctx := by
        cases Context.read text with
        | error e => exact iff_of_false (fun h => by cases h) (fun h => by cases h)
        | ok found =>
          show Except.ok found = Except.ok ctx ↔ _
          rw [Except.ok.injEq, Except.ok.injEq]
      simpa using hread

/-- The write that a command has to do in the end: that of its context to its state file. It takes a source,
settings and arguments by which the context is kept, a state file that can be resumed or none, and a pass without
an error. -/
def Command.Keeps (d : Directory) (settings : Settings) (command : Command) (w : FileWrite) : Prop :=
  match command with
  | .exec path stateFile persist _ => ∃ source, d.read path = .ok source ∧
      let t := runCommand.toolchain settings
      let file := stateFile.getD settings.exec.stateFile
      (settings.exec.persist && persist) = true ∧ ∃ ctx, Resumes d file ctx ∧
        let pass := t.exec (t.parse source).document ctx
        Ended pass ∧ w = ⟨file, pass.state.context.fileText⟩
  | _ => False

/-- The write that a run has to do in the end. -/
def Keeps (d : Directory) (args : List String) (w : FileWrite) : Prop :=
  ∃ invocation settings, Invocation.ofArguments args = .ok invocation ∧
    settingsIn d invocation.config = .ok settings ∧ invocation.command.Keeps d settings w

/-! ## Runs come down to endings -/

theorem exists_ending_runExec (t : Toolchain) (file : String) (persist : Bool) (format : Format) (source : String) :
    ∃ e : Ending, e.Of d (fun _ files => runExec files t file persist format source) ∧
      e.Fits fun w => persist = true ∧ ∃ ctx, Resumes d file ctx ∧
        let pass := t.exec (t.parse source).document ctx
        Ended pass ∧ w = ⟨file, pass.state.context.fileText⟩ := by
  cases hctx : contextIn d file with
  | error cause =>
    refine ⟨.report (.failure ("Error loading state: " ++ cause.message)), fun h s hs => ?_, fun w hw => ?_⟩
    · show StateT.run (runExec _ t file persist format source) s = _
      rw [runExec, run_bind_of (h.run_loadContext s file), hs, hctx]
      rfl
    · obtain ⟨-, ctx, hresumes, -⟩ := hw
      rw [contextIn_eq_ok.2 hresumes] at hctx
      cases hctx
  | ok ctx =>
    have hresumes (ctx' : Context) : Resumes d file ctx' ↔ ctx = ctx' := by
      rw [← contextIn_eq_ok, hctx, Except.ok.injEq]
    have hload {σ : Type} {files : Files (StateM σ)} {view : σ → Directory} (h : files.Shows view) (s : σ)
        (hs : view s = d) : StateT.run (loadContext files file) s = (.ok ctx, s) := by
      rw [h.run_loadContext, hs, hctx]
    simp only [hresumes, exists_eq_left']
    generalize hpass : t.exec (t.parse source).document ctx = pass
    by_cases hended : Ended pass
    · let notes := if pass.state.halted then ["Execution halted"] else []
      let report : Report := { output := shown t pass.document format, notes }
      cases persist with
      | false =>
        refine ⟨.report report, fun h s hs => ?_, fun w hw => absurd hw.1 Bool.false_ne_true⟩
        show StateT.run (runExec _ t file false format source) s = _
        rw [runExec, run_bind_of (hload h s hs)]
        simp only [hpass]
        split
        · exact absurd ‹_› (hended _)
        · rfl
      | true =>
        refine ⟨.write ⟨file, pass.state.context.fileText⟩ report fun e =>
          { code := 1, notes := notes ++ ["Error saving state: " ++ (StateError.access e).message] },
          fun h s hs => ?_, fun w => ?_, rfl⟩
        · show StateT.run (runExec _ t file true format source) s = _
          rw [runExec, run_bind_of (hload h s hs)]
          simp only [hpass]
          split
          · exact absurd ‹_› (hended _)
          · rfl
        · exact ⟨fun hw => hw.2.2, fun hw => ⟨rfl, hended, hw⟩⟩
    · obtain ⟨cause, hfailed⟩ : ∃ cause, pass.outcome = .failed cause := by
        simpa [Ended] using hended
      refine ⟨.report (.failure ("Execution error: " ++ cause.message)), fun h s hs => ?_,
        fun w hw => hended hw.2.1⟩
      show StateT.run (runExec _ t file persist format source) s = _
      rw [runExec, run_bind_of (hload h s hs)]
      simp only [hpass, hfailed]
      rfl

theorem exists_ending_onSource {path : String} {go : (σ : Type) → Files (StateM σ) → String → StateM σ Report}
    {keeps : String → FileWrite → Prop}
    (hgo : ∀ source, ∃ e : Ending, e.Of d (fun σ files => go σ files source) ∧ e.Fits (keeps source)) :
    ∃ e : Ending, e.Of d (fun σ files => onSource files path (go σ files)) ∧
      e.Fits fun w => ∃ source, d.read path = .ok source ∧ keeps source w := by
  cases hread : d.read path with
  | error cause =>
    refine ⟨.report (.failure ("Error reading file: " ++ cause.message)), fun h s hs => ?_, fun w hw => ?_⟩
    · rw [h.run_onSource, hs, hread]
      rfl
    · obtain ⟨source, hsource, -⟩ := hw
      cases hsource
  | ok source =>
    obtain ⟨e, hof, hfits⟩ := hgo source
    refine ⟨e, fun h s hs => ?_, ?_⟩
    · rw [h.run_onSource, hs, hread]
      exact hof h s hs
    · simpa using hfits

/-- A report on a source, and no writing. -/
theorem exists_ending_report {path : String} (report : String → Report) :
    ∃ e : Ending, e.Of d (fun _ files => onSource files path fun source => return report source) ∧
      e.Fits fun _ => False := by
  have hreport (source : String) : ∃ e : Ending, e.Of d (fun _ _ => return report source) ∧ e.Fits fun _ => False :=
    ⟨.report (report source), fun _ _ _ => rfl, fun _ => id⟩
  obtain ⟨e, hof, hfits⟩ := exists_ending_onSource hreport
  exact ⟨e, hof, by simpa using hfits⟩

theorem exists_ending_runCommand (settings : Settings) (command : Command) :
    ∃ e : Ending, e.Of d (fun _ files => runCommand files settings command) ∧ e.Fits (command.Keeps d settings) := by
  cases command with
  | parse path => exact exists_ending_report (runParse _)
  | format path check => exact exists_ending_report (runFormat _ path check)
  | exec path stateFile persist format =>
    exact exists_ending_onSource fun source => exists_ending_runExec (runCommand.toolchain settings)
      (stateFile.getD settings.exec.stateFile) (settings.exec.persist && persist) format source
  | listRules => exact ⟨.report (runListRules .standard), fun _ _ _ => rfl, fun _ => id⟩

/-- A run looks at the files and then reports, or writes the file that it has to keep. -/
theorem exists_ending (d : Directory) (args : List String) :
    ∃ e : Ending, e.Of d (fun _ files => run files args) ∧ e.Fits (Keeps d args) := by
  cases hargs : Invocation.ofArguments args with
  | error refusal =>
    refine ⟨.report refusal.report, fun h s hs => ?_, fun w hw => ?_⟩
    · show StateT.run (run _ args) s = _
      rw [run, hargs]
      rfl
    · obtain ⟨invocation, -, hsame, -⟩ := hw
      cases hargs.symm.trans hsame
  | ok invocation =>
    cases hsettings : settingsIn d invocation.config with
    | error cause =>
      refine ⟨.report (.failure ("Error loading configuration: " ++ cause.message)), fun h s hs => ?_,
        fun w hw => ?_⟩
      · show StateT.run (run _ args) s = _
        rw [run, hargs]
        simp only
        rw [run_bind_of (h.run_loadSettings s invocation.config), hs, hsettings]
        rfl
      · obtain ⟨invocation', settings, hsame, hok, -⟩ := hw
        obtain rfl := Except.ok.inj (hargs.symm.trans hsame)
        cases hsettings.symm.trans hok
    | ok settings =>
      obtain ⟨e, hof, hfits⟩ := exists_ending_runCommand (d := d) settings invocation.command
      have hkeeps : Keeps d args = invocation.command.Keeps d settings := by
        funext w
        simp only [Keeps, hargs, Except.ok.injEq, exists_eq_left', hsettings, exists_and_left]
      refine ⟨e, fun h s hs => ?_, hkeeps ▸ hfits⟩
      rw [h.run_of_settings s hargs (hs ▸ hsettings)]
      exact hof h s hs

/-! ## Runs -/

/-- A run in a directory. -/
structure Ran where
  args : List String
  before : Directory
  report : Report
  /-- The writes that did not fail, in order. -/
  writes : List FileWrite
  after : Directory

/-- The run of a command line in a directory. -/
def ran (d : Directory) (args : List String) : Ran :=
  let (report, journal) := StateT.run (run Journal.access args) ⟨d, []⟩
  ⟨args, d, report, journal.writes, journal.directory⟩

/-- The runs of command lines, each in the directory that those before it have left. -/
def session (d : Directory) : List (List String) → List Ran
  | [] => []
  | args :: more => ran d args :: session (ran d args).after more

/-- What a run writes and changes. -/
structure Ran.Keeping (r : Ran) : Prop where
  /-- It is the run of the program; the journal makes no difference. -/
  run_eq : StateT.run (run access r.args) r.before = (r.report, r.after)
  /-- Nothing is written and nothing changes, or one file is written. -/
  writes : r.writes = [] ∧ r.after = r.before ∨
    ∃ w, r.writes = [w] ∧ r.before.write w.path w.text = .ok r.after
  /-- A file is written just if the run has to, and can. -/
  writes_iff : ∀ w, r.writes = [w] ↔
    CommandLine.Keeps r.before r.args w ∧ ∃ d, r.before.write w.path w.text = .ok d
  /-- A run that fails writes and changes nothing. -/
  failed : r.report.code ≠ 0 → r.writes = [] ∧ r.after = r.before
  /-- No run does but an `exec` that may keep its context. -/
  quiet : ∀ invocation, Invocation.ofArguments r.args = .ok invocation →
    (∀ path stateFile format, invocation.command ≠ .exec path stateFile true format) →
      r.writes = [] ∧ r.after = r.before

/-- What has to be kept belongs to an `exec` that may keep it. -/
theorem Command.Keeps.exists_exec {settings : Settings} {command : Command} {w : FileWrite}
    (h : command.Keeps d settings w) : ∃ path stateFile format, command = .exec path stateFile true format := by
  cases command with
  | exec path stateFile persist format =>
    obtain ⟨source, -, hpersist, -⟩ := h
    obtain ⟨-, rfl⟩ := Bool.and_eq_true_iff.1 hpersist
    exact ⟨path, stateFile, format, rfl⟩
  | parse | format | listRules => exact h.elim

theorem Keeps.not_quiet {args : List String} {w : FileWrite} {invocation : Invocation} (h : Keeps d args w)
    (hargs : Invocation.ofArguments args = .ok invocation) :
    ∃ path stateFile format, invocation.command = .exec path stateFile true format := by
  obtain ⟨invocation', settings, hsame, -, hkeeps⟩ := h
  obtain rfl := Except.ok.inj (hargs.symm.trans hsame)
  exact hkeeps.exists_exec

/-- A run that only reports. -/
theorem keeping_of_report {args : List String} {report : Report}
    (haccess : StateT.run (run access args) d = (report, d))
    (hjournal : StateT.run (run Journal.access args) ⟨d, []⟩ = (report, ⟨d, []⟩))
    (hnot : ∀ w, Keeps d args w → ∀ d', d.write w.path w.text ≠ .ok d') : (ran d args).Keeping := by
  rw [ran, hjournal]
  refine ⟨haccess, .inl ⟨rfl, rfl⟩, fun w => ⟨fun hw => ?_, fun hw => ?_⟩, fun _ => ⟨rfl, rfl⟩,
    fun _ _ _ => ⟨rfl, rfl⟩⟩
  · cases hw
  · obtain ⟨hkeeps, d', hd⟩ := hw
    exact absurd hd (hnot w hkeeps d')

theorem keeping_ran (d : Directory) (args : List String) : (ran d args).Keeping := by
  obtain ⟨e, hof, hfits⟩ := exists_ending d args
  -- with a journal and without, the run comes down to the same ending
  have haccess : StateT.run (run access args) d = _ := hof Directory.shows_access d rfl
  have hjournal : StateT.run (run Journal.access args) ⟨d, []⟩ = _ := hof Journal.shows_access ⟨d, []⟩ rfl
  cases e with
  | report report => exact keeping_of_report haccess hjournal fun w hw => absurd hw (hfits w)
  | write w kept lost =>
    obtain ⟨hkeeps, hkept⟩ := hfits
    have hdirectory := run_write d w.path w.text
    have hnoted := Journal.run_write ⟨d, []⟩ w.path w.text
    cases hwrite : d.write w.path w.text with
    | error cause =>
      rw [hwrite] at hdirectory hnoted
      have hlost : StateT.run (run access args) d = (lost cause, d) := by
        rw [haccess, Ending.carryOut, run_bind_of hdirectory]
        rfl
      have hlost' : StateT.run (run Journal.access args) ⟨d, []⟩ = (lost cause, ⟨d, []⟩) := by
        rw [hjournal, Ending.carryOut, run_bind_of hnoted]
        rfl
      refine keeping_of_report hlost hlost' fun w' hw d' hd => ?_
      rw [(hkeeps w').1 hw, hwrite] at hd
      cases hd
    | ok d' =>
      rw [hwrite] at hdirectory hnoted
      have hran : ran d args = ⟨args, d, kept, [w], d'⟩ := by
        rw [ran, hjournal, Ending.carryOut, run_bind_of hnoted]
        rfl
      rw [hran]
      refine ⟨?_, .inr ⟨w, rfl, hwrite⟩, fun w' => ?_, fun hcode => absurd hkept hcode,
        fun invocation hargs hquiet => ?_⟩
      · rw [haccess, Ending.carryOut, run_bind_of hdirectory]
        rfl
      · rw [hkeeps, List.singleton_inj, eq_comm]
        exact ⟨fun hw => ⟨hw, d', hw ▸ hwrite⟩, And.left⟩
      · obtain ⟨path, stateFile, format, hexec⟩ := ((hkeeps w).2 rfl).not_quiet hargs
        exact absurd hexec (hquiet path stateFile format)

/-! ## Sequences of runs -/

/-- What command lines make of a directory. -/
def leftBy (d : Directory) (lines : List (List String)) : Directory :=
  lines.foldl (fun d args => (StateT.run (run access args) d).2) d

/-- A directory after a write, if that does not fail. -/
def put (d : Directory) (w : FileWrite) : Directory := (d.write w.path w.text).toOption.getD d

theorem Ran.Keeping.after_eq {r : Ran} (h : r.Keeping) : r.after = r.writes.foldl put r.before := by
  obtain ⟨hwrites, hafter⟩ | ⟨w, hwrites, hafter⟩ := h.writes
  · rw [hwrites, hafter]
    rfl
  · rw [hwrites, List.foldl_cons, put, hafter]
    rfl

/-- Every run of a sequence writes at most one file, which is the state file with the context of its pass, and
does so just if it has to keep that context and can. Runs that fail, and runs that are to keep nothing, change no
file. What the sequence makes of the directory are those writes, in order. -/
theorem session_keeps (d : Directory) (lines : List (List String)) :
    (session d lines).map (·.args) = lines ∧ (∀ r ∈ session d lines, r.Keeping) ∧
      leftBy d lines = ((session d lines).flatMap (·.writes)).foldl put d := by
  induction lines generalizing d with
  | nil => exact ⟨rfl, List.forall_mem_nil _, rfl⟩
  | cons args more ih =>
    have hkeeping := keeping_ran d args
    obtain ⟨hargs, hmore, hleft⟩ := ih (ran d args).after
    refine ⟨congrArg (args :: ·) hargs, List.forall_mem_cons.2 ⟨hkeeping, hmore⟩, ?_⟩
    have hrun : (StateT.run (run access args) d).2 = (ran d args).after := congrArg Prod.snd hkeeping.run_eq
    rw [leftBy, List.foldl_cons, hrun, session, List.flatMap_cons, List.foldl_append]
    exact hleft.trans (by rw [hkeeping.after_eq]; rfl)

/-- A run keeps the context of its pass, and another one, which is to keep nothing, leaves it there. -/
theorem session_keeps_context :
    let d : Directory := ⟨[("a", "%x = $init\x7bn\x7d$save\x7b%x\x7d"), ("c", "")]⟩
    let exec := ["exec", "--config", "c", "--state", "s", "a"]
    let kept : FileWrite := ⟨"s", "\x7b\n  \"cache\": \x7b\x7d,\n  \"saved\": \x7b\n    \"x\": \x7b\n" ++
      "      \"t\": \"str\",\n      \"v\": \"n\"\n    \x7d\n  \x7d\n\x7d"⟩
    ∃ first second, session d [exec, exec ++ ["--no-persist"]] = [first, second] ∧
      first.Keeping ∧ first.writes = [kept] ∧ second.Keeping ∧ second.writes = [] ∧ second.after = put d kept := by
  intro d exec kept
  have hsource : d.read "a" = .ok "%x = $init\x7bn\x7d$save\x7b%x\x7d" := by
    rw [Directory.read, d.spot_letter "a" (by decide)]
    rfl
  have hconfig : d.read "c" = .ok "" := by
    rw [Directory.read, d.spot_letter "c" (by decide)]
    rfl
  have habsent : d.isPresent "s" = false := by
    rw [Directory.isPresent, d.spot_letter "s" (by decide)]
    rfl
  obtain ⟨after, hwrite⟩ : ∃ after, d.write "s" kept.text = .ok after := by
    rw [Directory.write, d.spot_letter "s" (by decide)]
    exact ⟨_, rfl⟩
  let t := runCommand.toolchain Settings.defaults
  let pass := t.exec (t.parse "%x = $init\x7bn\x7d$save\x7b%x\x7d").document {}
  have hended : pass.outcome = .completed := by decide +kernel
  have htext : kept.text = pass.state.context.fileText := by decide +kernel
  have hkeeps : Keeps d exec kept := by
    refine ⟨⟨some "c", .exec "a" (some "s") true .tree⟩, Settings.defaults, rfl, settingsIn_of_read hconfig, _,
      hsource, rfl, {}, .inl ⟨habsent, rfl⟩, fun cause hfailed => ?_, congrArg (FileWrite.mk "s") htext⟩
    cases hended.symm.trans hfailed
  obtain ⟨-, hkeeping, -⟩ := session_keeps d [exec, exec ++ ["--no-persist"]]
  obtain ⟨hfirst, hrest⟩ := List.forall_mem_cons.1 hkeeping
  have hsecond := hrest _ (.head _)
  have hwrites := (hfirst.writes_iff kept).2 ⟨hkeeps, after, hwrite⟩
  obtain ⟨hnone, hsame⟩ := hsecond.quiet ⟨some "c", .exec "a" (some "s") false .tree⟩ rfl (by simp)
  refine ⟨_, _, rfl, hfirst, hwrites, hsecond, hnone, ?_⟩
  rw [hsame]
  exact hfirst.after_eq.trans (congrArg (List.foldl put d) hwrites)

end CommandLine

end Evomark
