import Codemod.Edit.Change
import Codemod.Markup.Document

namespace Codemod

/-- What a failure is about, independent of where it happened. -/
inductive Category where
  | invalidVersion
  | readFailure
  | parseFailure
  | ruleFailure
  | writeFailure
  | versionNotFound
  | nothingToDo
  | notFound
  | permissionDenied
  | isDirectory
  | modifiedExternally
  | migrationIncomplete
  | settingsUnusable
  | invalidUsage
  | notConfirmed
  | cancelled
  | absent
  deriving DecidableEq, Repr

def Category.message : Category → String
  | invalidVersion => "invalid version"
  | readFailure => "read failure"
  | parseFailure => "parse failure"
  | ruleFailure => "rule failure"
  | writeFailure => "write failure"
  | versionNotFound => "library version not found"
  | nothingToDo => "no migrations apply"
  | notFound => "file not found"
  | permissionDenied => "permission denied"
  | isDirectory => "path is a directory"
  | modifiedExternally => "file modified outside ngmigrate"
  | migrationIncomplete => "migration incomplete"
  | settingsUnusable => "failed to load configuration"
  | invalidUsage => "invalid usage"
  | notConfirmed => "restore not confirmed"
  | cancelled => "context canceled"
  | absent => "file does not exist"

/-- Why the file system refuses an operation. -/
inductive Errno where
  | noEntry
  | notDirectory
  | isDirectory
  | nameTooLong
  | loop
  | occupied
  | notEmpty
  | denied
  deriving DecidableEq, Repr

def Errno.message : Errno → String
  | noEntry => "no such file or directory"
  | notDirectory => "not a directory"
  | isDirectory => "is a directory"
  | nameTooLong => "file name too long"
  | loop => "too many levels of symbolic links"
  | occupied => "file exists"
  | notEmpty => "directory not empty"
  | denied => "permission denied"

/-- One complaint about the settings. -/
structure Finding where
  field : String
  file : Bytes
  message : Bytes
  deriving DecidableEq, Repr

/-- The file and the field, where they are known, and the complaint. -/
def Finding.text (f : Finding) : Bytes :=
  .join ": " ([f.file, bytes f.field].filter (!·.isEmpty) ++ [f.message])

/-- A failure: what went wrong, where, and because of which other failure. -/
inductive Fault where
  | plain (text : Bytes)
  | category (c : Category)
  | system (e : Errno)
  | malformed (e : Markup.ParseError)
  | misfit (e : Edit.InvalidChange)
  | conflict (e : Edit.Conflict)
  /-- A buffer cut at an offset that it does not have. -/
  | crash (stop : Int)
  | settings (f : Finding)
  /-- A failure that belongs to a category. -/
  | filed (c : Category) (cause : Fault)
  /-- A failure in the course of something. -/
  | within (context : Bytes) (cause : Fault)
  | all (causes : List Fault)

namespace Fault

def message : Fault → Bytes
  | plain text => text
  | category c => c.message
  | system e => e.message
  | malformed e => e.message
  | misfit e => e.message
  | conflict e => e.message
  | crash stop => .concat ["runtime error: slice bounds out of range [:", .ofInt stop, "]"]
  | settings f => f.text
  | filed c cause => .concat [c.message, ": ", cause.message]
  | within context cause => .concat [context, ": ", cause.message]
  | all causes => .join "\n" (causes.map message)

/-- The failures that a failure consists of, in order. -/
def leaves : Fault → List Fault
  | filed c cause => category c :: cause.leaves
  | within _ cause => cause.leaves
  | all causes => causes.flatMap leaves
  | leaf => [leaf]

/-- The failure, or one that caused it, belongs to a category. -/
def isA (f : Fault) (c : Category) : Bool :=
  f.leaves.any fun
    | category d => d = c
    | _ => false

def isConflict (f : Fault) : Bool := f.leaves.any fun | conflict _ => true | _ => false

def isCrash (f : Fault) : Bool := f.leaves.any fun | crash _ => true | _ => false

def isMisfit (f : Fault) : Bool := f.leaves.any fun | misfit _ => true | _ => false

def parseError? (f : Fault) : Option Markup.ParseError :=
  f.leaves.findSome? fun | malformed e => some e | _ => none

def isSettings (f : Fault) : Bool := f.leaves.any fun | settings _ => true | _ => false

/-- A file that had to exist does not. -/
def isAbsent (f : Fault) : Bool :=
  f.leaves.any fun
    | category .absent => true
    | system .noEntry => true
    | _ => false

/-- A file may not be used as it was to be. -/
def isDenied (f : Fault) : Bool := f.leaves.any fun | system .denied => true | _ => false

def ofApplyError : Edit.ApplyError → Fault
  | .invalid e => misfit e
  | .conflict e => conflict e
  | .crash stop => crash stop

/-- All failures as one, if there are any. -/
def joined? : List Fault → Option Fault
  | [] => none
  | faults => some (all faults)

end Fault

end Codemod
