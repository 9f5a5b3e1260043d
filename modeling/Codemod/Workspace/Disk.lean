import Codemod.Files.Backup
import Codemod.Patch.Diff
import Codemod.Workspace.Store

namespace Codemod.Workspace

open Files

/-- A file that a migration has read: its first content, its latest, and its state on disk then. -/
structure Tracked where
  path : Bytes
  first : Bytes
  latest : Bytes
  snapshot : Snapshot
  deriving DecidableEq, Repr

/-- The files of a project under migration. In a dry run nothing is written, but later readings
see what would have been. -/
structure Disk where
  dryRun : Bool
  policy : BackupPolicy
  tracked : List Tracked
  /-- The files that were backed up, in order. -/
  backups : List Bytes
  deriving DecidableEq, Repr

namespace Disk

def start (dryRun : Bool) (policy : BackupPolicy) : Disk := ⟨dryRun, policy, [], []⟩

def file? (d : Disk) (path : Bytes) : Option Tracked := d.tracked.find? (·.path = path)

/-- Remember a file, or what became of it. -/
def track (d : Disk) (file : Tracked) : Disk :=
  if (d.file? file.path).isSome then
    { d with tracked := d.tracked.map fun t => if t.path = file.path then file else t }
  else { d with tracked := d.tracked ++ [file] }

/-- Read a file from disk. -/
def fetch (d : Disk) (fs : FileSystem) (cancelled : Bool) (path : Bytes) : Except Fault (Tracked × Disk) :=
  match Snapshot.take fs cancelled path with
  | .error e => .error e
  | .ok (content, snapshot) =>
    let first := ((d.file? path).map Tracked.first).getD content
    let file : Tracked := ⟨path, first, content, snapshot⟩
    .ok (file, d.track file)

def read (d : Disk) (fs : FileSystem) (cancelled : Bool) (path : Bytes) : Except Fault Bytes × Disk :=
  let pending := if d.dryRun then d.file? path else none
  match pending with
  | some file => (.ok file.latest, d)
  | none =>
    match d.fetch fs cancelled path with
    | .ok (file, d) => (.ok file.latest, d)
    | .error e => (.error e, d)

/-- Replace a tracked file on disk, after a backup, if it is still as it was last seen. -/
def commit (d : Disk) (fs : FileSystem) (cancelled : Bool) (file : Tracked) (content : Bytes) :
    Except Fault Unit × Disk × FileSystem :=
  match file.snapshot.verify fs cancelled with
  | .error e => (.error e, d, fs)
  | .ok _ =>
    match Backup.create fs cancelled file.path d.policy with
    | .error e => (.error e, d, fs)
    | .ok (made, fs) =>
      let d := if made then { d with backups := d.backups ++ [file.path] } else d
      match fs.replace cancelled file.path content file.snapshot.permissions with
      | .error e => (.error (.within ("overwrite " ++ file.path) e), d, fs)
      | .ok fs =>
        match Snapshot.take fs cancelled file.path with
        | .error e => (.error e, d, fs)
        | .ok (_, snapshot) => (.ok (), d.track { file with latest := content, snapshot }, fs)

/-- Replace the content of a file. One that was not read yet is read first. -/
def overwrite (d : Disk) (fs : FileSystem) (cancelled : Bool) (path content : Bytes) :
    Except Fault Unit × Disk × FileSystem :=
  let known : Except Fault (Tracked × Disk) := match d.file? path with
    | some file => .ok (file, d)
    | none => d.fetch fs cancelled path
  match known with
  | .error e => (.error e, d, fs)
  | .ok (file, d) =>
    if d.dryRun then (.ok (), d.track { file with latest := content }, fs)
    else d.commit fs cancelled file content

/-- The files whose content is not the first one, by path. -/
def changedFiles (d : Disk) : List Tracked :=
  (d.tracked.filter fun t => t.first ≠ t.latest).mergeSort fun a b => a.path.le b.path

def changed (d : Disk) : List Bytes := d.changedFiles.map Tracked.path

def diffs (d : Disk) : List Patch.Diff :=
  d.changedFiles.filterMap fun t => Patch.diff? t.path t.first t.latest

/-- The first and the latest size of a file. -/
def sizes (d : Disk) (path : Bytes) : Nat × Nat :=
  match d.file? path with
  | some t => (t.first.length, t.latest.length)
  | none => (0, 0)

/-- The disk as a store for migrations. -/
def store : Store (Disk × FileSystem) where
  read path s :=
    let (content, d) := s.1.read s.2 false path
    (content, d, s.2)
  overwrite path content s := s.1.overwrite s.2 false path content

end Disk

end Codemod.Workspace
