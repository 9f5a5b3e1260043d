import Codemod.Fault

namespace Codemod.Workspace

/-- What a file is to a migration. -/
inductive Kind where
  | template
  | style
  | source
  | other (code : Int)
  deriving DecidableEq, Repr

namespace Kind

/-- The kinds that files have, in the order in which they are processed. -/
def all : List Kind := [template, style, source]

def code : Kind → Int
  | template => 0
  | style => 1
  | source => 2
  | other code => code

def ofCode (code : Int) : Kind :=
  if code = 0 then template else if code = 1 then style else if code = 2 then source else other code

def name : Kind → String
  | template => "template"
  | style => "style"
  | source => "source"
  | other code => "Kind(" ++ toString code ++ ")"

def ofName (name : String) : Except Fault Kind :=
  match all.find? (·.name = name) with
  | some kind => .ok kind
  | none => .error (.plain ("unknown file kind " ++ Text.quote name))

end Kind

/-- The files under migration. -/
structure FileSet where
  templates : List Bytes
  styles : List Bytes
  sources : List Bytes
  deriving DecidableEq, Repr

namespace FileSet

def empty : FileSet := ⟨[], [], []⟩

/-- The files of a kind, sorted. -/
def files (s : FileSet) (kind : Kind) : List Bytes :=
  match kind with
  | .template => Bytes.sort s.templates
  | .style => Bytes.sort s.styles
  | .source => Bytes.sort s.sources
  | .other _ => []

def add (s : FileSet) (kind : Kind) (path : Bytes) : FileSet :=
  match kind with
  | .template => { s with templates := s.templates ++ [path] }
  | .style => { s with styles := s.styles ++ [path] }
  | .source => { s with sources := s.sources ++ [path] }
  | .other _ => s

def size (s : FileSet) : Nat := s.templates.length + s.styles.length + s.sources.length

end FileSet

end Codemod.Workspace
