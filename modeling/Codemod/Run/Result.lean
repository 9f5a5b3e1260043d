import Codemod.Migration.Engine
import Codemod.Patch.Diff

namespace Codemod.Run

open Migration Workspace

/-- What a run did to one file. -/
structure Outcome where
  path : Bytes
  kind : Kind
  /-- The number of edits applied. -/
  changes : Int
  /-- The stages that changed the file, in order. -/
  stages : List String
  sizeBefore : Int
  size : Int
  /-- The file was backed up before its first write. -/
  backup : Bool
  /-- Why the file was given up, and in which stage. -/
  failure : Option Fault
  failedStage : String

namespace Outcome

def start (path : Bytes) (kind : Kind) : Outcome := ⟨path, kind, 0, [], 0, 0, false, none, ""⟩

def changed (o : Outcome) : Bool := 0 < o.changes

/-- The outcome after a further migration. The first failure stays. -/
def add (o : Outcome) (s : FileState) : Outcome :=
  let o := { o with changes := o.changes + s.changes, stages := o.stages ++ s.stages }
  match s.failure, o.failure with
  | some (stage, e), none => { o with failure := some e, failedStage := stage }
  | _, _ => o

end Outcome

/-- Totals of a run. -/
structure Stats where
  filesDiscovered : Int
  templates : Int
  styles : Int
  sources : Int
  filesModified : Int
  filesFailed : Int
  changesApplied : Int
  stagesRun : Int
  stagesSkipped : Int
  bytesBefore : Int
  bytesAfter : Int
  backupsCreated : Int
  deriving DecidableEq, Repr

namespace Stats

def zero : Stats := ⟨0, 0, 0, 0, 0, 0, 0, 0, 0, 0, 0, 0⟩

def toList (s : Stats) : List Int :=
  [s.filesDiscovered, s.templates, s.styles, s.sources, s.filesModified, s.filesFailed, s.changesApplied,
    s.stagesRun, s.stagesSkipped, s.bytesBefore, s.bytesAfter, s.backupsCreated]

/-- Totals in the order of their fields; missing ones are zero. -/
def ofList (totals : List Int) : Stats :=
  let total (i : Nat) : Int := totals.getD i 0
  ⟨total 0, total 1, total 2, total 3, total 4, total 5, total 6, total 7, total 8, total 9, total 10, total 11⟩

end Stats

/-- What one stage did. -/
structure StageSummary where
  id : String
  changes : Int
  files : List Bytes
  skipped : Bool
  deriving DecidableEq, Repr

/-- A migration with its stages in order. -/
structure MigrationSummary where
  version : String
  stages : List StageSummary
  deriving DecidableEq, Repr

def MigrationSummary.ofResult (r : Migration.Result) : MigrationSummary :=
  ⟨r.migration.toText, r.stages.map fun s => ⟨s.id, s.changes, s.files, s.skipped⟩⟩

/-- The outcome of a run. -/
structure Result where
  fromVersion : String
  toVersion : String
  dryRun : Bool
  migrations : List MigrationSummary
  /-- The files that changed or failed, by path. -/
  files : List Outcome
  diffs : List Patch.Diff
  stats : Stats

namespace Result

def hasFailures (r : Result) : Bool := 0 < r.stats.filesFailed

def hasChanges (r : Result) : Bool := 0 < r.stats.filesModified

def changed (r : Result) : List Outcome := r.files.filter Outcome.changed

def failed (r : Result) : List Outcome := r.files.filter (·.failure.isSome)

def fault? (r : Result) : Option Fault := Fault.joined? (r.files.filterMap Outcome.failure)

end Result

end Codemod.Run
