import Codemod.Command.Execute

namespace Codemod.Program

open Command Files

private def shownPath (path : Bytes) : String := Text.lossy path

/-- Take a file, or a directory with all that is worth looking at in it, from the disk. -/
partial def gather (fs : FileSystem) (path : Bytes) : IO FileSystem := do
  let here := (← IO.currentDir) / shownPath path
  if !(← here.pathExists) then return fs
  if ← here.isDir then
    let fs := fs.addDirectory (Path.parts path)
    if unsearched.contains (Path.base path) then return fs
    (← here.readDir).foldlM (fun fs entry => gather fs (Path.join [path, entry.fileName])) fs
  else
    let file : FileData ← match ← (IO.FS.readBinFile here).toBaseIO with
      | .ok content => pure ⟨content.toList, defaultPermissions, 0⟩
      | .error _ => pure ⟨[], 0, 0⟩
    return fs.add (Path.parts path) (.file file)

/-- The paths, beside the working directory, that a command may look at. -/
def candidates (env : Environment) (directory : Bytes) (words : List Bytes) : List Bytes :=
  let named := words.flatMap fun word => [word, (word.splitOn 61).getLastD []]
  let above := (Settings.upward directory).flatMap fun dir =>
    (Settings.projectFiles ++ Settings.checkoutMarks).map fun (name : String) => Path.join [dir, name]
  let shared : List Bytes := [env.get "XDG_CONFIG_HOME", Path.join [env.get "HOME", ".config"], "/etc"]
  (named.filter (!·.isEmpty)).map (fun path => if Path.isAbsolute path then Path.clean path
    else Path.join [directory, path]) ++ above ++ shared.map fun dir => Path.join [dir, "ngmigrate"]

def environment : IO Environment := do
  let names := Settings.knownVariables.map Settings.Variable.name ++ ["HOME", "XDG_CONFIG_HOME"]
  names.mapM fun name => return (name, (← IO.getEnv name).getD "")

/-- Bring to the disk what a command changed. -/
def bringBack (before after : FileSystem) : IO Unit := do
  for (here, entry) in after.entries do
    match entry with
    | .file data =>
      let known := match before.entry? here with
        | some (.file old) => old.content = data.content
        | _ => false
      if !known then
        IO.FS.writeBinFile (shownPath (FileSystem.pathOf here)) ⟨data.content.toArray⟩
    | _ => pure ()
  for (here, _) in before.entries do
    if (after.entry? here).isNone then IO.FS.removeFile (shownPath (FileSystem.pathOf here))

end Codemod.Program

open Codemod Codemod.Command Codemod.Files in
/-- Run the program on the words of its command line. -/
def main (words : List String) : IO UInt32 := do
  let env ← Program.environment
  let words := words.map bytes
  let directory := bytes (← IO.currentDir).toString
  let start := { FileSystem.empty with workplace := some (Path.parts directory) }
  let files ← (directory :: Program.candidates env directory words).foldlM Program.gather start
  let stdin ← IO.getStdin
  let stderr ← IO.getStderr
  let session : Session := ⟨files, env, [], ← stdin.isTty, false, none, .plain, false, .unreleased⟩
  -- A question shows as a refusal; it is asked before the command runs with the answer.
  let first := execute session words
  let question := if first.fault.any (·.isA .notConfirmed) then first.errors else []
  stderr.write ⟨question.toArray⟩
  let answer ← if question.isEmpty then pure "" else stdin.getLine
  let reply := executeProgram { session with input := answer } words
  Program.bringBack files reply.files
  (← IO.getStdout).write ⟨reply.output.toArray⟩
  stderr.write ⟨(reply.errors.dropHead question).toArray⟩
  return (exitCode reply.fault).toUInt32
