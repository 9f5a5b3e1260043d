import Codemod.Classify.Classifier
import Codemod.Files.BackupPolicy

namespace Codemod

open Classify Files Workspace

/-- Lists of extensions by the name of a kind, as a user wrote them. A name stands once. -/
abbrev ExtensionLists := List (String × Option (List String))

/-- Give a name a list, in place of the one it had. -/
def ExtensionLists.set (lists : ExtensionLists) (name : String) (list : Option (List String)) : ExtensionLists :=
  if lists.any (·.1 = name) then lists.map fun entry => if entry.1 = name then (name, list) else entry
  else lists ++ [(name, list)]

/-- What a user can set. An empty text, a missing list and a missing switch are not set. -/
structure Settings where
  /-- The version that the project uses now. -/
  fromVersion : String
  /-- The version to migrate to. -/
  toVersion : String
  /-- Patterns of paths to leave alone. -/
  ignored : Option (List String)
  /-- Stages to skip. -/
  disabled : Option (List String)
  backupsEnabled : Option Bool
  backupMode : String
  extensions : Option ExtensionLists
  dryRun : Bool
  /-- How results are reported. -/
  format : String
  noBackups : Bool
  deriving DecidableEq, Repr

namespace Settings

/-- Nothing is set. -/
def empty : Settings := ⟨"", "", none, none, none, "", none, false, "", false⟩

def standard : Settings := { empty with backupsEnabled := some true, backupMode := "sidecar", format := "text" }

def formats : List String := ["text", "json", "diff", "summary"]

/-- The backups that a run takes. A run that writes nothing takes none. -/
def backupPolicy (s : Settings) : BackupPolicy where
  enabled := s.backupsEnabled.getD BackupPolicy.standard.enabled && !(s.noBackups || s.dryRun)
  mode := if s.backupMode.isEmpty then BackupPolicy.standard.mode else s.backupMode

/-- The lists of extensions by kind. -/
abbrev KindLists := List (Kind × Option (List String))

def KindLists.set (lists : KindLists) (kind : Kind) (list : Option (List String)) : KindLists :=
  lists.map fun entry => if entry.1 = kind then (kind, list) else entry

def defaultLists : KindLists := defaultExtensions.map fun (kind, list) => (kind, some list)

/-- The extensions of every kind, or nothing when the user left them as they are. -/
def kindExtensions (s : Settings) : Except Fault (Option KindLists) :=
  match s.extensions.getD [] with
  | [] => .ok none
  | lists => do
    let result ← lists.foldlM (fun known (name, list) => do
      let kind ← (Kind.ofName (Text.lowerString name)).mapError (.within "extensions")
      return known.set kind list) defaultLists
    return some result

/-- The classifier that the settings ask for. -/
def classifier (s : Settings) : Except Fault Classifier := do
  let lists := (← s.kindExtensions).getD defaultLists
  return .ofExtensions (lists.map fun (kind, list) => (kind, list.getD []))

end Settings

/-- The later text unless it is empty. -/
def laterText (earlier later : String) : String := if later.isEmpty then earlier else later

/-- The later choice if there is one. -/
def laterChoice {α : Type} (earlier later : Option α) : Option α := later <|> earlier

/-- Name by name, the later list. -/
def ExtensionLists.merge (earlier later : ExtensionLists) : ExtensionLists :=
  later.foldl (fun lists (name, list) => lists.set name list) earlier

namespace Settings

/-- Both lists of extensions in one, if there are any. -/
def mergeExtensions : Option ExtensionLists → Option ExtensionLists → Option ExtensionLists
  | none, none => none
  | earlier, later => some ((earlier.getD []).merge (later.getD []))

/-- Two layers of settings. What the later one sets counts; it can turn a switch on, not off. -/
def merge (earlier later : Settings) : Settings where
  fromVersion := laterText earlier.fromVersion later.fromVersion
  toVersion := laterText earlier.toVersion later.toVersion
  ignored := laterChoice earlier.ignored later.ignored
  disabled := laterChoice earlier.disabled later.disabled
  backupsEnabled := laterChoice earlier.backupsEnabled later.backupsEnabled
  backupMode := laterText earlier.backupMode later.backupMode
  extensions := mergeExtensions earlier.extensions later.extensions
  dryRun := earlier.dryRun || later.dryRun
  format := laterText earlier.format later.format
  noBackups := earlier.noBackups || later.noBackups

/-- Two layers, either of which may be missing. -/
def merge? : Option Settings → Option Settings → Option Settings
  | none, later => later
  | earlier, none => earlier
  | some earlier, some later => some (earlier.merge later)

/-- Layers in order, the last one on top. -/
def mergeAll (layers : List (Option Settings)) : Option Settings := layers.foldl merge? none

end Settings

end Codemod
