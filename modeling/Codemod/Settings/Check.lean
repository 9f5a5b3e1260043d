import Codemod.Migration.Registry
import Codemod.Pattern.Glob
import Codemod.Settings.Basic

namespace Codemod

open Files Migration Workspace

/-- The complaints about settings; only errors make them unusable. -/
structure Findings where
  errors : List Finding
  warnings : List Finding
  deriving DecidableEq, Repr

namespace Findings

def messages (f : Findings) : List Bytes :=
  f.errors.map (fun e => bytes "error: " ++ e.text) ++ f.warnings.map (fun w => bytes "warning: " ++ w.text)

/-- The same complaints about a file. -/
def inFile (f : Findings) (file : Bytes) : Findings :=
  ⟨f.errors.map ({ · with file }), f.warnings.map ({ · with file })⟩

end Findings

namespace Settings

private def finding (field : String) (parts : List Bytes) : Finding := ⟨field, "", .concat parts⟩

def formatErrors (s : Settings) : List Finding :=
  if s.format.isEmpty || formats.contains s.format then []
  else [finding "format"
    ["invalid format ", Text.quote s.format, "; must be one of: text, json, diff, summary"]]

def backupErrors (s : Settings) : List Finding :=
  if s.backupMode.isEmpty || BackupPolicy.isKnownMode s.backupMode then []
  else [finding "backups.mode"
    ["invalid backup mode ", Text.quote s.backupMode, "; must be one of: sidecar, none"]]

/-- A version must be readable if it is set. -/
def versionErrors (field text : String) : List Finding :=
  if text.isEmpty then []
  else match Version.ofString text with
    | .ok _ => []
    | .error e => [finding field [e.message]]

def rangeErrors (s : Settings) : List Finding :=
  let unreadable := versionErrors "from" s.fromVersion ++ versionErrors "to" s.toVersion
  if !unreadable.isEmpty || s.fromVersion.isEmpty || s.toVersion.isEmpty then unreadable
  else if Version.compareText s.fromVersion s.toVersion = .gt then
    [finding "from" ["from ", s.fromVersion, " is newer than to ", s.toVersion]]
  else []

/-- The items of a list with the field that holds them. -/
def indexed (field : String) (items : List String) : List (String × String) :=
  items.zipIdx.map fun (item, i) => (field ++ "[" ++ toString i ++ "]", item)

def stageWarnings (s : Settings) (known : List String) : List Finding :=
  (indexed "disable" (s.disabled.getD [])).filterMap fun (field, id) =>
    if known.contains id then none
    else some (finding field ["unknown stage ", Text.quote id, "; it will be ignored"])

def patternErrors (s : Settings) : List Finding :=
  (indexed "ignore" (s.ignored.getD [])).filterMap fun (field, pattern) =>
    match Pattern.Glob.parse? pattern with
    | some _ => none
    | none => some (finding field ["invalid glob pattern: syntax error in pattern"])

/-- An extension names something and stays within a file name. -/
def isExtension (extension : String) : Bool :=
  !(Bytes.dropHead extension ".").isEmpty && !extension.toList.any fun c => c == '/' || c == '\\'

def extensionErrors (s : Settings) : List Finding :=
  let sorted := (s.extensions.getD []).mergeSort fun a b => Bytes.le a.1 b.1
  sorted.flatMap fun (name, list) =>
    let field := "extensions." ++ name
    match Kind.ofName (Text.lowerString name) with
    | .error e => [finding field [e.message, "; must be one of: template, style, source"]]
    | .ok _ => ((list.getD []).filter (!isExtension ·)).map fun (extension : String) =>
      finding field ["invalid extension ", Text.quote extension]

/-- Check settings. Stages are looked up in the registry if there is one. -/
def check (s : Settings) (registry : Option Registry) : Findings where
  errors := s.formatErrors ++ s.backupErrors ++ s.rangeErrors ++ s.patternErrors ++ s.extensionErrors
  warnings := match registry with
    | some r => s.stageWarnings r.stageIds
    | none => []

end Settings

end Codemod
