import Codemod.Command.Session
import Codemod.Files.Backup

namespace Codemod.Command

open Files Log

/-- A question as it is asked. -/
def asked (question : Bytes) : Bytes := question ++ " [y/N] "

/-- The first line of an input is a yes. When the input has no full line, reading goes on and may be
refused. -/
def confirms (input : Bytes) (refusal : Option Fault) : Except Fault Bool :=
  let answer := Text.lower (Text.trimBytes ((input.splitOn 10).headD []))
  match if List.contains input 10 then none else refusal with
  | some e => .error (.within "read answer" e)
  | none => .ok (answer = "y" || answer = "yes")

/-- Directories that are not searched for backups. -/
def unsearched : List Bytes := ["node_modules", "dist", ".git", ".hg", ".svn"]

/-- A restoration on its way through the files. -/
structure Restoration where
  files : FileSystem
  restored : Nat
  log : List Record
  faults : List Fault

/-- Restore one file. A failure is noted and the others go on. -/
def Restoration.step (cancelled : Bool) (r : Restoration) (path : Bytes) : Restoration :=
  match Backup.restore r.files cancelled path "sidecar" with
  | .error e => { r with
      log := r.log ++ [⟨.warn, "restore failed", [("path", path), ("error", e.message)]⟩]
      faults := r.faults ++ [.within path e] }
  | .ok (true, files) => { r with
      files
      restored := r.restored + 1
      log := r.log ++ [⟨.debug, "restored", [("path", path)]⟩] }
  | .ok (false, files) => { r with files }

/-- Restore files, after what was said to the person so far. -/
def restoreAll (s : Session) (said : Bytes) (paths : List Bytes) : Reply :=
  let r := paths.foldl (Restoration.step s.cancelled) ⟨s.files, 0, [], []⟩
  let done : Record := ⟨.info, "restore complete", [("restored", .ofNat r.restored)]⟩
  ⟨[], said ++ personalLog.renderAll (r.log ++ [done]), Fault.joined? r.faults, r.files⟩

def backedUp (s : Session) (roots : List Bytes) : Except Fault (List Bytes) :=
  (roots.mapM fun root => Backup.find s.files s.cancelled root unsearched).map List.flatten

/-- Put back what an update replaced. Nothing is restored that nobody agreed to. -/
def runRestore (s : Session) (a : Arguments) : Reply :=
  match backedUp s (if a.operands.isEmpty then [bytes "."] else a.operands) with
  | .error e => s.fail e
  | .ok [] => { s.quiet with errors := personalLog.render ⟨.info, "no backups found", []⟩ }
  | .ok paths =>
    if a.isOn "dry-run" then { s.quiet with output := s.print (paths.flatMap fun p => p ++ [10]) }
    else if a.isOn "yes" then restoreAll s [] paths
    else if !s.terminal then
      s.fail (.filed .invalidUsage (.plain (.concat
        ["stdin is not a terminal; pass --yes to restore ", .ofNat paths.length, " files"])))
    else
      let said := asked (.concat ["Restore ", .ofNat paths.length, " files from backup?"])
      match confirms s.input none with
      | .error e => ⟨[], said, some e, s.files⟩
      | .ok false => ⟨[], said, some (.category .notConfirmed), s.files⟩
      | .ok true => restoreAll s said paths

end Codemod.Command
