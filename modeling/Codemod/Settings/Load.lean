import Codemod.Files.FileSystem
import Codemod.Settings.Check
import Codemod.Settings.Environment
import Codemod.Settings.File
import Codemod.Settings.Basic

namespace Codemod.Settings

open Files Migration

/-- The names of a settings file in a project, in order of preference. -/
def projectFiles : List String := [".ngmigrate.yml", ".ngmigrate.yaml", "ngmigrate.yml", "ngmigrate.yaml"]

/-- Directories that mark the top of a checkout. -/
def checkoutMarks : List String := [".git", ".hg", ".svn"]

/-- A directory and those above it, up to the root. -/
def upward (dir : Bytes) : List Bytes :=
  let names := Path.cleanParts dir
  (List.range (names.length + 1)).reverse.map fun n => Path.ofParts true (names.take n)

/-- The first of some files in a directory that exists. -/
def fileIn? (fs : FileSystem) (dir : Bytes) (names : List String) : Option Bytes :=
  (names.map fun (name : String) => Path.join [dir, name]).find? fs.holdsFile

def isCheckout (fs : FileSystem) (dir : Bytes) : Bool :=
  checkoutMarks.any fun mark => fs.holdsDirectory (Path.join [dir, mark])

/-- Look for a settings file in one directory after the other, no further than the top of a
checkout or the home directory. -/
def searchIn (fs : FileSystem) (home : Bytes) : List Bytes → Option Bytes
  | [] => none
  | dir :: above =>
    match fileIn? fs dir projectFiles with
    | some path => some path
    | none =>
      if isCheckout fs dir || (!home.isEmpty && dir = home) then none else searchIn fs home above

/-- The settings file of the project that a directory belongs to. -/
def projectFile (fs : FileSystem) (env : Environment) (cancelled : Bool) (start : Bytes) :
    Except Fault (Option Bytes) := do
  let start ← if start.isEmpty then fs.workingDirectory.mapError (.within "get working directory")
    else .ok start
  let dir ← (fs.absolute start).mapError (.within "resolve absolute path")
  if cancelled then .error (.within "context cancelled" (.category .cancelled))
  else .ok (searchIn fs (env.get "HOME") (upward dir))

/-- The settings file of a directory made for it. -/
def sharedFile? (fs : FileSystem) (dir : Bytes) : Option Bytes :=
  fileIn? fs (Path.join [dir, "ngmigrate"]) ["config.yaml", "config.yml"]

/-- The settings file of the whole machine. -/
def systemFile? (fs : FileSystem) : Option Bytes := sharedFile? fs "/etc"

/-- The settings file of the user. -/
def userFile? (fs : FileSystem) (env : Environment) : Option Bytes :=
  let chosen := env.get "XDG_CONFIG_HOME"
  let home := env.get "HOME"
  if !chosen.isEmpty then sharedFile? fs chosen
  else if home.isEmpty then none
  else sharedFile? fs (Path.join [home, ".config"])

/-- Where settings come from. -/
structure Sources where
  workingDirectory : Bytes
  /-- A file that the user names. -/
  explicit : Bytes
  useUser : Bool
  useProject : Bool
  useEnvironment : Bool
  /-- Settings that count more than all others. -/
  flags : Option Settings

/-- Settings from all sources, and where they were found. -/
structure Loaded where
  settings : Settings
  user : Option Bytes
  project : Option Bytes
  explicit : Bytes
  loadedFrom : List Bytes
  warnings : List Bytes

/-- Read and check one settings file. -/
def readFile (fs : FileSystem) (registry : Registry) (path : Bytes) : Except Fault Settings := do
  let content ← (fs.read path).mapError (.within "read file")
  let settings ← (parse content).mapError (.within path)
  match ((settings.check (some registry)).inFile path).errors with
  | [] => .ok settings
  | first :: _ => .error (.settings first)

/-- A layer of settings with its name. -/
def withLayer (fs : FileSystem) (registry : Registry) (s : Settings) (layer : String × Bytes) :
    Except Fault Settings := do
  let added ← (readFile fs registry layer.2).mapError (.within (.concat ["load ", layer.1, " config"]))
  return s.merge added

/-- Settings from the files of machine, user and project, a file given by name, the environment
and the command line. Later ones count more. -/
def load (fs : FileSystem) (env : Environment) (registry : Registry) (cancelled : Bool) (sources : Sources) :
    Except Fault Loaded := do
  let dir ← if sources.workingDirectory.isEmpty then
      fs.workingDirectory.mapError (.within "get working directory")
    else .ok sources.workingDirectory
  if cancelled then
    .error (.within "discover paths: context cancelled" (.category .cancelled))
  let project ← (projectFile fs env cancelled dir).mapError (.within "discover paths")
  let user := userFile? fs env
  let layers : List (String × Bytes) :=
    ((systemFile? fs).toList.map ("system", ·)) ++
      (if sources.useUser then user.toList.map ("user", ·) else []) ++
      (if sources.useProject then project.toList.map ("project", ·) else []) ++
      (if sources.explicit.isEmpty then [] else [("explicit", sources.explicit)])
  let settings ← layers.foldlM (withLayer fs registry) standard
  let settings ← if sources.useEnvironment then
      (settings.applyEnvironment env).mapError (.within "load environment")
    else .ok settings
  let settings := match sources.flags with
    | some flags => settings.merge flags
    | none => settings
  let found := settings.check (some registry)
  match found.errors with
  | first :: _ => .error (.settings first)
  | [] => return ⟨settings, user, project, sources.explicit, layers.map Prod.snd, found.warnings.map Finding.text⟩

/-- Write a new settings file. One that exists is overwritten only by force. -/
def writeFile (fs : FileSystem) (path content : Bytes) (force : Bool) : Except Fault FileSystem :=
  if !force && fs.holds path then
    .error (.plain (path ++ " already exists (use --force to overwrite)"))
  else (fs.write path content defaultPermissions).mapError (.within "write file")

end Codemod.Settings
