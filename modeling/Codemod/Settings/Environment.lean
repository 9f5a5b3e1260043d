import Codemod.Settings.Basic

namespace Codemod

/-- The values of environment variables. -/
abbrev Environment := List (String × String)

/-- A variable that is not set is empty. -/
def Environment.get (env : Environment) (name : String) : String := (env.lookup name).getD ""

namespace Settings

/-- What a variable sets. -/
inductive Setter where
  | text (set : String → Settings → Settings)
  | switch (set : Bool → Settings → Settings)
  | list (set : List String → Settings → Settings)

/-- An environment variable for a field of the settings. -/
structure Variable where
  suffix : String
  field : String
  help : String
  setter : Setter

def Variable.name (v : Variable) : String := "NGMIGRATE_" ++ v.suffix

def knownVariables : List Variable :=
  [⟨"FROM", "from", "Version the project currently uses", .text fun x s => { s with fromVersion := x }⟩,
    ⟨"TO", "to", "Version to migrate to", .text fun x s => { s with toVersion := x }⟩,
    ⟨"DRY_RUN", "dry_run", "Dry-run mode: true or false", .switch fun x s => { s with dryRun := x }⟩,
    ⟨"FORMAT", "format", "Output format: text, json, diff, or summary",
      .text fun x s => { s with format := x }⟩,
    ⟨"BACKUPS_ENABLED", "backups.enabled", "Enable backups: true or false",
      .switch fun x s => { s with backupsEnabled := some x }⟩,
    ⟨"BACKUPS_MODE", "backups.mode", "Backup mode: sidecar or none",
      .text fun x s => { s with backupMode := x }⟩,
    ⟨"IGNORE", "ignore", "Comma-separated list of ignore patterns",
      .list fun x s => { s with ignored := some x }⟩,
    ⟨"DISABLE", "disable", "Comma-separated list of stage IDs to skip",
      .list fun x s => { s with disabled := some x }⟩,
    ⟨"NO_BACKUPS", "no_backups", "Disable backups: true or false",
      .switch fun x s => { s with noBackups := x }⟩]

/-- The variable for a field. -/
def variableName (field : String) : String :=
  ((knownVariables.find? (·.field = field)).map Variable.name).getD ""

/-- The words that mean true or false. -/
def switchValue? (word : String) : Option Bool :=
  if ["1", "t", "T", "TRUE", "true", "True"].contains word then some true
  else if ["0", "f", "F", "FALSE", "false", "False"].contains word then some false
  else none

/-- The non-empty items between commas, without white space around them. -/
def listItems (value : String) : List String :=
  (((value.splitOn ",").map Text.trim).filter (!·.isEmpty))

/-- Set what one variable says. -/
def applyVariable (s : Settings) (v : Variable) (value : String) : Except Fault Settings :=
  match v.setter with
  | .text set => .ok (set value s)
  | .list set => .ok (set (listItems value) s)
  | .switch set =>
    match switchValue? value with
    | some b => .ok (set b s)
    | none => .error (.plain (.concat
      ["invalid boolean for ", v.name, ": ", Text.quote value, " (expected true/false/1/0)"]))

/-- The settings with all that the environment sets. -/
def applyEnvironment (s : Settings) (env : Environment) : Except Fault Settings :=
  knownVariables.foldlM (fun s v =>
    let value := env.get v.name
    if value.isEmpty then .ok s else s.applyVariable v value) s

end Settings

end Codemod
