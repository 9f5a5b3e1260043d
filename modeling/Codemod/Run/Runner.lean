import Codemod.Migration.Registry
import Codemod.Project.Manifest
import Codemod.Run.Discovery
import Codemod.Run.Result
import Codemod.Workspace.Disk

namespace Codemod.Run

open Files Migration Project Workspace

/-- The version of the library in the manifest of a directory. -/
def detectVersion (fs : FileSystem) (dir : Bytes) : Except Fault String :=
  let path := Path.join [dir, "package.json"]
  match fs.read path with
  | .ok content => Manifest.libraryVersion path content
  | .error e =>
    if e.isAbsent then .error (.filed .versionNotFound (.plain ("no package.json in " ++ dir)))
    else .error (.within ("read " ++ path) e)

/-- The version of the project, as set or as its manifest says, and the migrations it needs. -/
def plan (fs : FileSystem) (registry : Registry) (o : Options) :
    Except Fault (Version × List Migration) := do
  let current ← if o.settings.fromVersion.isEmpty then do
      detectVersion fs (← rootDirectory fs o)
    else .ok o.settings.fromVersion
  let migrations ← registry.select current o.settings.toVersion
  let version ← Version.ofString current
  return (version, migrations)

/-- The outcomes so far. -/
abbrev Outcomes := List Outcome

/-- Take over what a migration did to the files it changed or gave up. -/
def Outcomes.add (outcomes : Outcomes) (r : Migration.Result) : Outcomes :=
  (r.files.filter fun s => s.changed || s.failure.isSome).foldl (fun known s =>
    if known.any (·.path = s.path) then known.map fun o => if o.path = s.path then o.add s else o
    else known ++ [(Outcome.start s.path s.kind).add s]) outcomes

/-- A run on its way through the migrations. -/
structure Progress where
  disk : Disk
  files : FileSystem
  outcomes : Outcomes
  migrations : List MigrationSummary
  cancelled : Bool
  fault : Option Fault
  log : List Log.Record

/-- Run one migration after the other. A run that is cancelled stops. -/
def runMigrations (settings : Settings) (files : FileSet) : List Migration → Progress → Progress
  | [], p => p
  | m :: rest, p =>
    let note : Log.Record := ⟨.info, "running migration",
      [("migration", bytes m.version.toText), ("dry_run", if settings.dryRun then "true" else "false")]⟩
    let o := Migration.run Disk.store (settings.disabled.getD []) files m p.cancelled (p.disk, p.files)
    let p : Progress := ⟨o.tree.1, o.tree.2, p.outcomes.add o.result,
      p.migrations ++ [.ofResult o.result], o.cancelled, o.fault, p.log ++ note :: o.log⟩
    if o.fault.isSome then p else runMigrations settings files rest p

/-- The outcome of a file with its sizes and whether it was backed up. -/
def finishOutcome (d : Disk) (o : Outcome) : Outcome :=
  let (before, after) := d.sizes o.path
  { o with sizeBefore := before, size := after, backup := d.backups.contains o.path }

def sumOf (values : List Int) : Int := values.foldl (· + ·) 0

/-- The totals of finished outcomes. -/
def finishStats (files : FileSet) (d : Disk) (migrations : List MigrationSummary) (outcomes : Outcomes) :
    Stats :=
  let changed := outcomes.filter Outcome.changed
  let stages := migrations.flatMap MigrationSummary.stages
  { filesDiscovered := files.size
    templates := files.templates.length
    styles := files.styles.length
    sources := files.sources.length
    filesModified := changed.length
    filesFailed := outcomes.countP (·.failure.isSome)
    changesApplied := sumOf (changed.map Outcome.changes)
    stagesRun := stages.countP fun s => !s.skipped
    stagesSkipped := stages.countP (·.skipped)
    bytesBefore := sumOf (changed.map Outcome.sizeBefore)
    bytesAfter := sumOf (changed.map Outcome.size)
    backupsCreated := d.backups.eraseDups.length }

/-- What a run leaves: its result, why it stopped early, the files and the log. -/
structure Finished where
  result : Option Result
  fault : Option Halt
  files : FileSystem
  log : List Log.Record

def finish (settings : Settings) (current target : Version) (files : FileSet) (p : Progress) : Finished :=
  let outcomes := (p.outcomes.map (finishOutcome p.disk)).mergeSort fun a b => a.path.le b.path
  let result : Result :=
    { fromVersion := current.toText
      toVersion := target.toText
      dryRun := settings.dryRun
      migrations := p.migrations
      files := outcomes
      diffs := p.disk.diffs
      stats := finishStats files p.disk p.migrations outcomes }
  ⟨some result, p.fault.map Halt.fault, p.files, p.log⟩

/-- Find the files of a project and run every migration it needs over them. Failures of single
files are part of the result. -/
def run (fs : FileSystem) (registry : Registry) (cancelled : Bool) (o : Options) : Finished :=
  let stop (e : Halt) : Finished := ⟨none, some e, fs, []⟩
  match plan fs registry o with
  | .error e => stop (.fault e)
  | .ok (current, migrations) =>
    match migrations.getLast? with
    | none => stop (.fault (.filed .nothingToDo (.plain ("project is on " ++ current.toText))))
    | some last =>
      match discover fs cancelled o with
      | .error e => stop e
      | .ok files =>
        let note : Log.Record := ⟨.debug, "files discovered",
          [("templates", .ofNat files.templates.length), ("styles", .ofNat files.styles.length),
            ("sources", .ofNat files.sources.length)]⟩
        let start : Progress :=
          ⟨.start o.settings.dryRun o.settings.backupPolicy, fs, [], [], cancelled, none, [note]⟩
        finish o.settings current last.version files (runMigrations o.settings files migrations start)

end Codemod.Run
