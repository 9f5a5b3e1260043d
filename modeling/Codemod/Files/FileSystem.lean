import Codemod.Fault
import Codemod.Files.Path

namespace Codemod.Files

/-- A place in the tree: the names from the root down. -/
abbrev Location := List Bytes

structure FileData where
  content : Bytes
  /-- What the owner, the group and others may do. The owner is the one who runs the program. -/
  permissions : Nat
  /-- The time of the last write. -/
  modified : Nat
  deriving DecidableEq, Repr

inductive Entry where
  | file (data : FileData)
  /-- The one who runs the program may list it, go through it and change it. -/
  | directory
  | link (target : Bytes)
  deriving DecidableEq, Repr

/-- A file system and a place in it to work from. -/
structure FileSystem where
  entries : List (Location × Entry)
  clock : Nat
  /-- Where relative paths start, unless that directory is gone. -/
  workplace : Option Location
  /-- The one who runs the program may read and write any file. -/
  privileged : Bool
  deriving DecidableEq, Repr

/-- What a path is asked for. -/
inductive Aim where
  /-- The thing that the path leads to. -/
  | thing
  /-- The last name itself, though it may be a link. -/
  | name
  /-- The place at the end, whether or not something is there. -/
  | place
  /-- The place of the last name itself, whether or not something is there. -/
  | slot
  deriving DecidableEq, Repr

/-- Nothing need be there. -/
def Aim.takesNothing (aim : Aim) : Bool := aim = .place || aim = .slot

/-- A link at the end is not followed. -/
def Aim.takesLink (aim : Aim) : Bool := aim = .name || aim = .slot

def defaultPermissions : Nat := 0o644

namespace FileSystem

def empty : FileSystem := ⟨[], 0, some [], false⟩

def entry? (fs : FileSystem) (here : Location) : Option Entry :=
  if here.isEmpty then some .directory else fs.entries.lookup here

/-- Put an entry in a place, over the one that is there. -/
def put (fs : FileSystem) (here : Location) (entry : Entry) : FileSystem :=
  if (fs.entries.lookup here).isSome then
    { fs with entries := fs.entries.map fun e => if e.1 = here then (here, entry) else e }
  else { fs with entries := fs.entries ++ [(here, entry)] }

/-- Take away a place with everything below it. -/
def erase (fs : FileSystem) (here : Location) : FileSystem :=
  { fs with entries := fs.entries.filter fun e => !here.isPrefixOf e.1 }

/-- The names directly below a place, sorted. -/
def names (fs : FileSystem) (here : Location) : List Bytes :=
  Bytes.sort (fs.entries.filterMap fun (place, _) =>
    match place.getLast? with
    | some name => if place.dropLast = here then some name else none
    | none => none)

/-- The number of links that may be passed on one path. -/
def linkLimit : Nat := 40

/-- The names on a path; a slash at the end asks for a directory. -/
def pathNames (path : Bytes) : List Bytes :=
  (path.splitOn slash).filter (!·.isEmpty) ++ (if path.endsWith "/" then [bytes "."] else [])

/-- Go along names, through at most `links` links. -/
def follow (fs : FileSystem) (aim : Aim) (links : Nat) (here : Location) (names : List Bytes) :
    Except Errno Location :=
  match names with
  | [] => .ok here
  | name :: rest =>
    if 255 < name.length then .error .nameTooLong
    else if name = "." then fs.follow aim links here rest
    else if name = ".." then fs.follow aim links here.dropLast rest
    else match fs.entry? (here ++ [name]) with
      | none => if aim.takesNothing && rest.isEmpty then .ok (here ++ [name]) else .error .noEntry
      | some .directory => fs.follow aim links (here ++ [name]) rest
      | some (.file _) => if rest.isEmpty then .ok (here ++ [name]) else .error .notDirectory
      | some (.link target) =>
        if aim.takesLink && rest.isEmpty then .ok (here ++ [name])
        else match links with
          | 0 => .error .loop
          | links + 1 =>
            fs.follow aim links (if Path.isAbsolute target then [] else here) (pathNames target ++ rest)
termination_by (links, names.length)

/-- The place that a path leads to. -/
def locateWith (fs : FileSystem) (aim : Aim) (links : Nat) (path : Bytes) : Except Errno Location :=
  if path.isEmpty then .error .noEntry
  else match if Path.isAbsolute path then some [] else fs.workplace with
    | none => .error .noEntry
    | some start => fs.follow aim links start (pathNames path)

def locate (fs : FileSystem) (aim : Aim) (path : Bytes) : Except Errno Location :=
  fs.locateWith aim linkLimit path

/-- A refused operation on a path. -/
def refusal (operation : String) (path : Bytes) (e : Errno) : Fault :=
  .within (.concat [operation, " ", path]) (.system e)

/-- The path of a place. -/
def pathOf (here : Location) : Bytes := Path.ofParts true here

structure Status where
  isDirectory : Bool
  isLink : Bool
  size : Nat
  permissions : Nat
  modified : Nat
  deriving DecidableEq, Repr

def statusOf : Entry → Status
  | .file data => ⟨false, false, data.content.length, data.permissions, data.modified⟩
  | .directory => ⟨true, false, 4096, 0o755, 0⟩
  | .link target => ⟨false, true, target.length, 0o777, 0⟩

def statusAt (fs : FileSystem) (operation : String) (aim : Aim) (path : Bytes) : Except Fault Status :=
  match fs.locate aim path with
  | .error e => .error (refusal operation path e)
  | .ok here => .ok (statusOf ((fs.entry? here).getD .directory))

/-- The status of what a path leads to. -/
def status (fs : FileSystem) (path : Bytes) : Except Fault Status := fs.statusAt "stat" .thing path

/-- The status of what stands at the end of a path, links not followed. -/
def linkStatus (fs : FileSystem) (path : Bytes) : Except Fault Status := fs.statusAt "lstat" .name path

def holds (fs : FileSystem) (path : Bytes) : Bool := (fs.status path).toBool

/-- There is a file, or a link to one. -/
def holdsFile (fs : FileSystem) (path : Bytes) : Bool :=
  match fs.status path with
  | .ok s => !s.isDirectory
  | .error _ => false

def holdsDirectory (fs : FileSystem) (path : Bytes) : Bool :=
  match fs.status path with
  | .ok s => s.isDirectory
  | .error _ => false

/-- Who is not privileged goes by what the owner may do. -/
def mayRead (fs : FileSystem) (permissions : Nat) : Bool := fs.privileged || permissions.testBit 8

def mayWrite (fs : FileSystem) (permissions : Nat) : Bool := fs.privileged || permissions.testBit 7

def read (fs : FileSystem) (path : Bytes) : Except Fault Bytes :=
  match fs.locate .thing path with
  | .error e => .error (refusal "open" path e)
  | .ok here =>
    match fs.entry? here with
    | some (.file data) =>
      if fs.mayRead data.permissions then .ok data.content else .error (refusal "open" path .denied)
    | _ => .error (refusal "read" path .isDirectory)

/-- Write a file as a whole. A new one gets the given permissions. -/
def write (fs : FileSystem) (path content : Bytes) (permissions : Nat) : Except Fault FileSystem :=
  match fs.locate .place path with
  | .error e => .error (refusal "open" path e)
  | .ok here =>
    let now := fs.clock + 1
    match fs.entry? here with
    | some .directory => .error (refusal "open" path .isDirectory)
    | some (.file data) =>
      if fs.mayWrite data.permissions then
        .ok { fs.put here (.file { data with content, modified := now }) with clock := now }
      else .error (refusal "open" path .denied)
    | _ => .ok { fs.put here (.file ⟨content, permissions, now⟩) with clock := now }

/-- Remove a file, a link or an empty directory. -/
def remove (fs : FileSystem) (path : Bytes) : Except Fault FileSystem :=
  match fs.locate .name path with
  | .error e => .error (refusal "remove" path e)
  | .ok here =>
    if fs.entry? here = some .directory && !(fs.names here).isEmpty then
      .error (refusal "remove" path .notEmpty)
    else .ok (fs.erase here)

/-- Replace a file at once: the content goes to a file beside it, which then takes its name. A
link at that name is replaced, not followed. No permissions means the default ones. -/
def replace (fs : FileSystem) (cancelled : Bool) (path content : Bytes) (permissions : Nat) :
    Except Fault FileSystem :=
  if cancelled then .error (.within "write atomic" (.category .cancelled))
  else
    let unnamed (e : Errno) : Fault :=
      .within "rename temp file" (refusal "rename" (.concat [Path.beside path ".tmp.N", " ", path]) e)
    match fs.locate .place (Path.beside path ".tmp.0123456789") with
    | .error e => .error (.within "create temp file" (refusal "open" (Path.beside path ".tmp.N") e))
    | .ok _ =>
      match fs.locate .slot path with
      | .error e => .error (unnamed e)
      | .ok here =>
        if fs.entry? here = some .directory then .error (unnamed .occupied)
        else
          let now := fs.clock + 1
          let permissions := if permissions = 0 then defaultPermissions else permissions
          .ok { fs.put here (.file ⟨content, permissions, now⟩) with clock := now }

/-- The path with all its links resolved. -/
def resolve? (fs : FileSystem) (path : Bytes) : Option Bytes :=
  ((fs.locateWith .thing 255 path).toOption).map pathOf

/-- The path of the working directory. -/
def workingDirectory (fs : FileSystem) : Except Fault Bytes :=
  match fs.workplace with
  | some here => .ok (pathOf here)
  | none => .error (.within "getwd" (.system .noEntry))

/-- A path that does not depend on the working directory. -/
def absolute (fs : FileSystem) (path : Bytes) : Except Fault Bytes :=
  if Path.isAbsolute path then .ok (Path.clean path)
  else fs.workingDirectory.map fun start => Path.join [start, path]

/-- Make a directory and those above it. -/
def addDirectory (fs : FileSystem) (here : Location) : FileSystem :=
  (List.range (here.length + 1)).foldl (fun fs n =>
    let above := here.take n
    if (fs.entry? above).isSome then fs else fs.put above .directory) fs

/-- Add an entry and the directories above it. -/
def add (fs : FileSystem) (here : Location) (entry : Entry) : FileSystem :=
  (fs.addDirectory here.dropLast).put here entry

/-- Work from another directory. -/
def enter (fs : FileSystem) (path : Bytes) : FileSystem :=
  { fs with workplace := (fs.locate .thing path).toOption }

/-- Take away the working directory. -/
def abandon (fs : FileSystem) : FileSystem :=
  match fs.workplace with
  | some here => { fs.erase here with workplace := none }
  | none => fs

end FileSystem

/-- What a directory holds, all the way down, sorted by name. -/
inductive Branch where
  | file (name : Bytes)
  | link (name : Bytes)
  | directory (name : Bytes) (below : List Branch)

namespace FileSystem

/-- The branches below a place, to a depth. -/
def branchesTo (fs : FileSystem) : Nat → Location → List Branch
  | 0, _ => []
  | depth + 1, here =>
    (fs.names here).map fun name =>
      match fs.entry? (here ++ [name]) with
      | some .directory => .directory name (fs.branchesTo depth (here ++ [name]))
      | some (.link _) => .link name
      | _ => .file name

/-- The branches below a place. No place lies deeper than there are entries. -/
def branches (fs : FileSystem) (here : Location) : List Branch := fs.branchesTo fs.entries.length here

end FileSystem

end Codemod.Files
