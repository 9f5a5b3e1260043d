import Codemod.Files.FileSystem
import Codemod.Pattern.Glob
import Codemod.Settings.Basic

namespace Codemod.Run

open Classify Files Pattern Workspace

/-- What to run over. -/
structure Options where
  /-- Files and directories; none means the working directory. -/
  paths : List Bytes
  /-- The root of the project; none means where the program runs. -/
  workingDirectory : Bytes
  /-- Patterns of paths to leave out, beside those of the settings. -/
  excluded : List Bytes
  /-- Go into directories that links lead to. -/
  followLinks : Bool
  settings : Settings

namespace Options

/-- Directories that hold no code of the project. -/
def skippedDirectories : List Bytes := ["node_modules", "dist"]

def targets (o : Options) : List Bytes := if o.paths.isEmpty then ["."] else o.paths

def excludedPatterns (o : Options) : List Bytes := (o.settings.ignored.getD []).map bytes ++ o.excluded

end Options

/-- Why a search stops: something is wrong, or links lead back to where they are. -/
inductive Halt where
  | fault (e : Fault)
  | endless

def Halt.toFault : Halt → Fault
  | fault e => e
  | endless => .plain "endless walk"

/-- What was found so far. -/
structure Search where
  seen : List Bytes
  found : FileSet

/-- What a search needs to know. -/
structure Terms where
  files : FileSystem
  root : Bytes
  excluded : List Bytes
  classifier : Classifier
  followLinks : Bool

namespace Terms

/-- A path as seen from the root of the project. -/
def relative (t : Terms) (path : Bytes) : Bytes := (Path.relative? t.root path).getD path

def excludes (t : Terms) (path : Bytes) : Bool := Glob.matchAny (t.relative path) t.excluded

/-- Take in a file if it is one to migrate and may be read. -/
def consider (t : Terms) (s : Search) (path : Bytes) : Except Fault Search :=
  if s.seen.contains path || t.excludes path || (t.classifier.candidate? path).isNone then .ok s
  else match t.files.read path with
    | .error e => if e.isDenied then .ok s else .error (.within ("read " ++ path) e)
    | .ok content =>
      match t.classifier.classify? (t.relative path) (some content) with
      | none => .ok s
      | some kind => .ok ⟨s.seen ++ [path], s.found.add kind path⟩

def isHidden (name : Bytes) : Bool := name.startsWith "."

/-- A file met on the way. -/
def meetFile (t : Terms) (s : Search) (path : Bytes) : Except Halt Search :=
  if isHidden (Path.base path) then .ok s else (t.consider s path).mapError .fault

/-- A link met on the way. Broken ones are passed over; `enter` goes into a directory. -/
def meetLink (t : Terms) (enter : Bytes → Search → Except Halt Search) (s : Search) (path : Bytes) :
    Except Halt Search :=
  match t.files.resolve? path with
  | none => .ok s
  | some target =>
    if t.files.holdsDirectory target then
      if t.followLinks then enter target s else .ok s
    else t.meetFile s path

/-- A directory is not gone into if it is hidden, holds no code of the project or is left out. -/
def passes (t : Terms) (name path : Bytes) : Bool :=
  isHidden name || Options.skippedDirectories.contains name || t.excludes path

mutual

def walkBranch (t : Terms) (enter : Bytes → Search → Except Halt Search) (above : Bytes) :
    Branch → Search → Except Halt Search
  | .file name, s => t.meetFile s (Path.join [above, name])
  | .link name, s => t.meetLink enter s (Path.join [above, name])
  | .directory name below, s =>
    let path := Path.join [above, name]
    if t.passes name path then .ok s else t.walkBranches enter path below s

def walkBranches (t : Terms) (enter : Bytes → Search → Except Halt Search) (above : Bytes) :
    List Branch → Search → Except Halt Search
  | [], s => .ok s
  | branch :: rest, s =>
    match t.walkBranch enter above branch s with
    | .error e => .error e
    | .ok s => t.walkBranches enter above rest s

end

/-- A failure below a directory. -/
def below (root : Bytes) : Halt → Halt
  | .fault e => .fault (.within ("walk directory " ++ root) e)
  | .endless => .endless

/-- Walk through a directory, going through links at most `levels` deep. -/
def walk (t : Terms) : Nat → Bytes → Search → Except Halt Search
  | 0, _, _ => .error .endless
  | levels + 1, root, s =>
    Except.mapError (below root) <|
      match t.files.locate .name root with
      | .error e => .error (.fault (FileSystem.refusal "lstat" root e))
      | .ok here =>
        match t.files.entry? here with
        | some (.link _) => t.meetLink (t.walk levels) s root
        | some (.file _) => t.meetFile s root
        | _ => t.walkBranches (t.walk levels) root (t.files.branches here) s

/-- A walk that goes through more links than there are directories has been in one of them twice
and goes on forever. -/
def levelLimit (t : Terms) : Nat := t.files.entries.length + 2

/-- Take in a file, or all that a directory holds. -/
def search (t : Terms) (s : Search) (target : Bytes) : Except Halt Search :=
  let path := if Path.isAbsolute target then Path.clean target else Path.join [t.root, target]
  match t.files.status path with
  | .error e => .error (.fault (.within ("stat " ++ target) e))
  | .ok status =>
    if status.isDirectory then t.walk t.levelLimit path s
    else (t.consider s path).mapError .fault

end Terms

/-- The root of the project as an absolute path. -/
def rootDirectory (fs : FileSystem) (o : Options) : Except Fault Bytes :=
  Except.mapError (.within "resolve working directory") <|
    if o.workingDirectory.isEmpty then fs.workingDirectory.mapError (.within "get working directory")
    else (fs.absolute o.workingDirectory).mapError (.within "resolve absolute path")

/-- The files to migrate under the paths given, each once. -/
def discover (fs : FileSystem) (cancelled : Bool) (o : Options) : Except Halt FileSet := do
  let root ← (rootDirectory fs o).mapError .fault
  let classifier ← o.settings.classifier.mapError Halt.fault
  if cancelled then .error (.fault (.within "discovery cancelled" (.category .cancelled)))
  let terms : Terms := ⟨fs, root, o.excludedPatterns, classifier, o.followLinks⟩
  let s ← o.targets.foldlM terms.search ⟨[], .empty⟩
  return s.found

end Codemod.Run
