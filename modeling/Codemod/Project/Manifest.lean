import Codemod.Fault
import Codemod.Files.Path
import Codemod.Json.Read
import Codemod.Text.Blank
import Codemod.Text.Lower

namespace Codemod.Project

/-- The package whose version decides which migrations a project needs. -/
def library : String := "igniteui-angular"

/-- The version that a requirement names, without its operators. Ranges, tags and locations name
none. -/
def plainVersion? (requirement : String) : Option String :=
  let version := (Text.trimChars requirement.toList).dropWhile fun c =>
    ['^', '~', '>', '=', 'v', ' '].contains c
  match version with
  | [] => none
  | c :: _ =>
    if c.isDigit && !version.any fun c => [' ', '|', '<', ':', '/', '*', 'x', 'X'].contains c then
      some (String.ofList version)
    else none

/-- Required packages with their requirements; the last entry of a package counts. -/
abbrev Requirements := List (Bytes × Bytes)

def Requirements.get? (r : Requirements) (package : Bytes) : Option Bytes := r.reverse.lookup package

/-- What a project requires, by purpose. -/
structure Manifest where
  runtime : Requirements
  development : Requirements
  peer : Requirements

namespace Manifest

def empty : Manifest := ⟨[], [], []⟩

/-- Names of fields are compared without regard to case; the long s is an s. -/
def foldName (name : Bytes) : Bytes :=
  bytes (String.ofList ((Text.lossy name).toList.map fun c => if c = 'ſ' then 's' else Text.lowerChar c))

/-- Requirements after a field gives some more, or none at all. -/
def requirements? (known : Requirements) : Json.Value → Option Requirements
  | .null => some []
  | .object entries => do
    let added ← entries.mapM fun (name, value) =>
      match value with
      | .string s => some (name, s)
      | .null => some (name, [])
      | _ => none
    return known ++ added
  | _ => none

def withField? (m : Manifest) (name : Bytes) (value : Json.Value) : Option Manifest :=
  let folded := foldName name
  if folded = foldName "dependencies" then do
    return { m with runtime := ← requirements? m.runtime value }
  else if folded = foldName "devDependencies" then do
    return { m with development := ← requirements? m.development value }
  else if folded = foldName "peerDependencies" then do
    return { m with peer := ← requirements? m.peer value }
  else some m

def parse? (content : Bytes) : Option Manifest := do
  match ← Json.read? content with
  | .null => return empty
  | .object entries => entries.foldlM (fun m (name, value) => m.withField? name value) empty
  | _ => none

/-- The requirement for a package: at run time, in development or of a peer. -/
def requirement? (m : Manifest) (package : Bytes) : Option Bytes :=
  (m.runtime.get? package) <|> (m.development.get? package) <|> (m.peer.get? package)

/-- The version of the library that the manifest at a path asks for. -/
def libraryVersion (path content : Bytes) : Except Fault String :=
  match parse? content with
  | none => .error (.within ("parse " ++ path) (.plain "invalid manifest"))
  | some m =>
    match m.requirement? library with
    | none => .error (.filed .versionNotFound
      (.plain (.concat [path, " does not depend on ", library])))
    | some requirement =>
      match plainVersion? (Text.lossy requirement) with
      | some version => .ok version
      | none => .error (.filed .versionNotFound
        (.plain (.concat ["unsupported version ", Text.quote requirement, " in ", path])))

end Manifest

end Codemod.Project
