import Codemod.Digest.Sha256
import Codemod.Files.BackupPolicy
import Codemod.Files.FileSystem

namespace Codemod.Files

/-- The state of a file when it was read, by which a later change by others can be noticed. -/
structure Snapshot where
  path : Bytes
  permissions : Nat
  modified : Nat
  size : Nat
  digest : Bytes
  deriving DecidableEq, Repr

/-- A failure to read a path. -/
def readFault (path : Bytes) (cause : Fault) : Fault :=
  if cause.isAbsent then .filed .notFound (.within path cause)
  else if cause.isDenied then .filed .permissionDenied (.within path cause)
  else .within ("read " ++ path) cause

namespace Snapshot

/-- Read a file together with its state. -/
def take (fs : FileSystem) (cancelled : Bool) (path : Bytes) : Except Fault (Bytes × Snapshot) :=
  if cancelled then .error (.within "read file" (.category .cancelled))
  else match fs.status path with
    | .error e => .error (readFault path e)
    | .ok s =>
      if s.isDirectory then .error (.filed .isDirectory (.plain path))
      else match fs.read path with
        | .error e => .error (readFault path e)
        | .ok content => .ok (content, ⟨path, s.permissions, s.modified, s.size, Digest.sha256 content⟩)

private def changed (detail : Bytes) : Fault := .filed .modifiedExternally (.plain detail)

/-- The file is still as it was read. Size and time are compared first; the digest settles the rest. -/
def verify (s : Snapshot) (fs : FileSystem) (cancelled : Bool) : Except Fault Unit :=
  if cancelled then .error (.within ("verify " ++ s.path) (.category .cancelled))
  else match fs.status s.path with
    | .error e =>
      if e.isAbsent then .error (changed (s.path ++ " was removed"))
      else .error (.within ("stat " ++ s.path) e)
    | .ok now =>
      if now.size ≠ s.size then .error (changed s.path)
      else if now.modified = s.modified then .ok ()
      else match fs.read s.path with
        | .error e => .error (readFault s.path e)
        | .ok content => if Digest.sha256 content = s.digest then .ok () else .error (changed s.path)

end Snapshot

end Codemod.Files

namespace Codemod.Files.Backup

/-- Back up a file unless it has a backup, which holds the content from before the first
migration. Says whether a backup was made. -/
def create (fs : FileSystem) (cancelled : Bool) (path : Bytes) (policy : BackupPolicy) :
    Except Fault (Bool × FileSystem) :=
  match if policy.enabled then BackupPolicy.place? policy.mode path else none with
  | none => .ok (false, fs)
  | some place =>
    if cancelled then .error (.within "create backup" (.category .cancelled))
    else match fs.status place with
      | .ok _ => .ok (false, fs)
      | .error e =>
        if !e.isAbsent then .error (.within "stat backup path" e)
        else match Snapshot.take fs cancelled path with
          | .error e => .error (.within "read original for backup" e)
          | .ok (content, snapshot) =>
            match fs.replace cancelled place content snapshot.permissions with
            | .error e => .error (.within "write backup" e)
            | .ok fs => .ok (true, fs)

/-- Remove the backup of a file. Says whether there was one. -/
def discard (fs : FileSystem) (path : Bytes) (mode : String) : Except Fault (Bool × FileSystem) :=
  match BackupPolicy.place? mode path with
  | none => .ok (false, fs)
  | some place =>
    match fs.remove place with
    | .ok fs => .ok (true, fs)
    | .error e => if e.isAbsent then .ok (false, fs) else .error (.within "remove backup" e)

/-- Write the backup of a file over it and remove the backup. Says whether there was one. -/
def restore (fs : FileSystem) (cancelled : Bool) (path : Bytes) (mode : String) :
    Except Fault (Bool × FileSystem) :=
  if cancelled then .error (.within "restore backup" (.category .cancelled))
  else match BackupPolicy.place? mode path with
    | none => .ok (false, fs)
    | some place =>
      match Snapshot.take fs cancelled place with
      | .error e => if e.isA .notFound then .ok (false, fs) else .error (.within "read backup" e)
      | .ok (content, snapshot) =>
        match fs.replace cancelled path content snapshot.permissions with
        | .error e => .error (.within "restore from backup" e)
        | .ok fs => (discard fs path mode).map fun (_, fs) => (true, fs)

/-- A file has a backup. -/
def present (fs : FileSystem) (path : Bytes) (mode : String) : Bool :=
  match BackupPolicy.place? mode path with
  | none => false
  | some place => fs.holds place

/-- The file that a backup belongs to. -/
def owner? (path : Bytes) : Option Bytes :=
  if path.endsWith BackupPolicy.suffix then some (path.dropTail BackupPolicy.suffix) else none

mutual

/-- The owners of the backups in a branch below a path; directories with certain names are left out. -/
def ownersIn (skipped : List Bytes) (above : Bytes) : Branch → List Bytes
  | .file name => (owner? (Path.join [above, name])).toList
  | .link name => (owner? (Path.join [above, name])).toList
  | .directory name below =>
    if skipped.contains name then [] else ownersInAll skipped (Path.join [above, name]) below

def ownersInAll (skipped : List Bytes) (above : Bytes) : List Branch → List Bytes
  | [] => []
  | branch :: rest => ownersIn skipped above branch ++ ownersInAll skipped above rest

end

/-- The path leads to a working directory that is gone: it can be entered but not listed. -/
def leadsNowhere (fs : FileSystem) (path : Bytes) : Bool :=
  fs.workplace.isNone && !path.isEmpty && Path.clean path = "."

/-- The files with a backup at or below a path, sorted. -/
def find (fs : FileSystem) (cancelled : Bool) (root : Bytes) (skipped : List Bytes) :
    Except Fault (List Bytes) :=
  let failed (e : Fault) : Fault := .within ("find backups in " ++ root) e
  let nowhere := leadsNowhere fs root
  match if nowhere then .ok (FileSystem.statusOf .directory) else fs.linkStatus root with
  | .error e => .error (failed e)
  | .ok s =>
    if cancelled then .error (failed (.category .cancelled))
    else if nowhere then .error (failed (FileSystem.refusal "readdirent" root .noEntry))
    else if s.isDirectory then
      match fs.locate .name root with
      | .ok here => .ok (Bytes.sort (ownersInAll skipped root (fs.branches here)))
      | .error e => .error (failed (.system e))
    else .ok (owner? root).toList

end Codemod.Files.Backup
