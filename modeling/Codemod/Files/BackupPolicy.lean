import Codemod.Text.Bytes

namespace Codemod.Files

/-- Whether changed files are backed up, and how. Any mode but `none` puts the backup beside
the file. -/
structure BackupPolicy where
  enabled : Bool
  mode : String
  deriving DecidableEq, Repr

namespace BackupPolicy

def standard : BackupPolicy := ⟨true, "sidecar"⟩

def isKnownMode (mode : String) : Bool := mode = "sidecar" || mode = "none"

/-- What the name of a backup has after the name of the file. -/
def suffix : Bytes := ".ngmigrate.bak"

/-- Where the backup of a file is kept, if the mode keeps any. -/
def place? (mode : String) (path : Bytes) : Option Bytes :=
  if mode = "none" then none else some (path ++ suffix)

end BackupPolicy

end Codemod.Files
