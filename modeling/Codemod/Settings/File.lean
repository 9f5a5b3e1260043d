import Codemod.Settings.Basic
import Codemod.Yaml.Decode
import Codemod.Yaml.Document
import Codemod.Yaml.Write

namespace Codemod.Settings

open Yaml

def extensionsOf? (node : Node) : Decoding (Option ExtensionLists) := do
  match ← node.members? with
  | none => return none
  | some members =>
    return some (← members.foldlM (fun lists (name, node) => do return ExtensionLists.set lists name (← node.texts?)) [])

/-- Take over one field of the backup settings. -/
def withBackupField (s : Settings) (name : String) (node : Node) : Decoding Settings := do
  match name with
  | "enabled" => return { s with backupsEnabled := ← node.switch? }
  | "mode" => return { s with backupMode := (← node.text?).getD "" }
  | _ => complain (.unknownField name); return s

def withBackups (s : Settings) (node : Node) : Decoding Settings := do
  ((← node.fields?).getD []).foldlM (fun s (name, node) => s.withBackupField name node) s

/-- Take over one field. -/
def withField (s : Settings) (name : String) (node : Node) : Decoding Settings := do
  match name with
  | "from" => return { s with fromVersion := (← node.text?).getD "" }
  | "to" => return { s with toVersion := (← node.text?).getD "" }
  | "ignore" => return { s with ignored := ← node.texts? }
  | "disable" => return { s with disabled := ← node.texts? }
  | "backups" => s.withBackups node
  | "extensions" => return { s with extensions := ← extensionsOf? node }
  | _ => complain (.unknownField name); return s

def ofNode (node : Node) : Decoding Settings := do
  ((← node.fields?).getD []).foldlM (fun s (name, node) => s.withField name node) empty

/-- Read a settings file. Fields that nobody knows are refused. -/
def parse (content : Bytes) : Except Fault Settings :=
  if (Text.trimBytes content).isEmpty then .ok empty
  else
    (do (ofNode (← Yaml.read content)).finish).mapError fun (problem : Problem) =>
      .within "parse yaml" (.plain problem.message)

def textEntry (name text : String) : List (String × Value) :=
  if text.isEmpty then [] else [(name, .text text)]

def listEntry (name : String) (items : Option (List String)) : List (String × Value) :=
  match items.getD [] with
  | [] => []
  | items => [(name, .list items)]

def tableEntry (name : String) (entries : List (String × Value)) : List (String × Value) :=
  if entries.isEmpty then [] else [(name, .table entries)]

/-- The fields that are set and belong in a file. -/
def toEntries (s : Settings) : List (String × Value) :=
  textEntry "from" s.fromVersion ++ textEntry "to" s.toVersion ++ listEntry "ignore" s.ignored ++
    listEntry "disable" s.disabled ++
    tableEntry "backups" ((s.backupsEnabled.toList.map fun on => ("enabled", .switch on)) ++
      textEntry "mode" s.backupMode) ++
    tableEntry "extensions" ((sortEntries (s.extensions.getD [])).map fun (name, list) =>
      (name, .list (list.getD [])))

/-- Write a settings file. -/
def render (s : Settings) : String := Yaml.write s.toEntries

end Codemod.Settings
