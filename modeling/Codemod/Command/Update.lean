import Codemod.Command.Session
import Codemod.Release12.Stages
import Codemod.Report.Render
import Codemod.Run.Result
import Codemod.Run.Runner
import Codemod.Settings.Load

namespace Codemod.Command

open Log

/-- The exit code of a finished run. -/
def exitCodeOf (r : Option Run.Result) : Nat := if r.any Run.Result.hasFailures then 1 else 0

/-- The exit code for the failure that ended a command, if any. -/
def exitCode : Option Fault → Nat
  | none => 0
  | some e =>
    if e.isA .migrationIncomplete then 1
    else if e.isA .settingsUnusable then 65
    else if e.isA .invalidUsage then 64
    else 70

/-- A list in a log. -/
def shownList (items : List Bytes) : Bytes := .concat ["[", .join " " items, "]"]

def shownSwitch (on : Bool) : Bytes := if on then "true" else "false"

/-- The settings that the flags of a command line make. A format counts if one was given. -/
def flagSettings (a : Arguments) (format : Report.Format) : Settings :=
  let word (name : String) : String := ((a.text? name).map Text.lossy).getD ""
  let words (name : String) : Option (List String) := (a.items? name).map (·.map Text.lossy)
  { Settings.empty with
    fromVersion := word "from"
    toVersion := word "to"
    ignored := words "ignore"
    disabled := words "disable"
    dryRun := a.isOn "dry-run"
    format := if (a.text? "format").isSome then format.name else ""
    noBackups := a.isOn "no-backups" }

/-- What is said before a run. -/
def openingRecords (l : Settings.Loaded) (paths : List Bytes) (directory : Bytes) : List Record :=
  let s := l.settings
  l.warnings.map (fun w => ⟨.warn, w, []⟩) ++
    (if l.loadedFrom.isEmpty then []
      else [⟨.debug, "loaded configuration from", [("files", shownList l.loadedFrom)]⟩]) ++
    [⟨.debug, "configuration loaded",
      [("from", s.fromVersion), ("to", s.toVersion), ("dry_run", shownSwitch s.dryRun),
        ("backup", shownSwitch s.backupPolicy.enabled)]⟩,
    ⟨.debug, "starting update run", [("paths", shownList paths), ("working_dir", directory)]⟩]

/-- Report what a run did. Failures of files and an early end make the command fail. -/
def reportRun (s : Session) (a : Arguments) (settings : Settings) (directory errors : Bytes)
    (f : Run.Finished) (early : Option Fault) : Reply :=
  let reply : Reply := ⟨[], errors, none, f.files⟩
  let options : Report.Options :=
    ⟨settings.format, ((a.text? "color").map Text.lossy).getD "auto", true, a.isOn "compact", directory⟩
  match Report.render options f.result with
  | .error e => { reply with fault := some (.within "create reporter" e) }
  | .ok report =>
    match Report.deliver options s.refusal report with
    | .error e => { reply with
        errors := errors ++ (workLog false).render ⟨.error, "report failed", [("error", e.message)]⟩
        fault := some (.within "report results" e) }
    | .ok output => { reply with
        output
        fault := match early with
          | some e => some (.within "update interrupted" e)
          | none => if exitCodeOf f.result = 0 then none else some (.category .migrationIncomplete) }

/-- Migrate a project. A project with nothing to migrate is no failure. -/
def runUpdate (s : Session) (a : Arguments) : Reply :=
  match Report.Format.parse (((a.text? "format").map Text.lossy).getD "text") with
  | .error e => s.fail (.filed .invalidUsage e)
  | .ok format =>
    match s.files.workingDirectory with
    | .error e => s.fail (.within "get working directory" e)
    | .ok directory =>
      let sources : Settings.Sources :=
        ⟨directory, (a.text? "config").getD [], true, true, true, some (flagSettings a format)⟩
      match Settings.load s.files s.environment Release12.registry s.cancelled sources with
      | .error e => s.fail (.filed .settingsUnusable e)
      | .ok loaded =>
        let log := workLog (a.isOn "debug")
        let f := Run.run s.files Release12.registry s.cancelled ⟨a.operands, directory, [], false, loaded.settings⟩
        let errors := log.renderAll (openingRecords loaded a.operands directory ++ f.log)
        let early := f.fault.map Run.Halt.toFault
        match early, f.result with
        | some e, none =>
          if e.isA .nothingToDo then
            { s.quiet with
              errors := errors ++ personalLog.render ⟨.info, "nothing to do", [("error", e.message)]⟩ }
          else ⟨[], errors, some (.within "update failed" e), f.files⟩
        | _, _ => reportRun s a loaded.settings directory errors f early

end Codemod.Command
