import Codemod.Fault

namespace Codemod.Workspace

/-- How a migration reaches its files: it reads them and overwrites them as a whole. `σ` is what
the store remembers between calls. -/
structure Store (σ : Type) where
  read : Bytes → σ → Except Fault Bytes × σ
  overwrite : Bytes → Bytes → σ → Except Fault Unit × σ

/-- The store with some paths that cannot be read or written. -/
def Store.refusing {σ : Type} (s : Store σ) (unreadable unwritable : Bytes → Option Fault) : Store σ where
  read path t := match unreadable path with
    | some e => (.error e, t)
    | none => s.read path t
  overwrite path content t := match unwritable path with
    | some e => (.error e, t)
    | none => s.overwrite path content t

/-- A file held in memory, with the number of times it was overwritten. -/
structure MemoryFile where
  path : Bytes
  content : Bytes
  writes : Nat
  deriving DecidableEq, Repr

/-- Files held in memory, one entry for a path. -/
abbrev Memory := List MemoryFile

namespace Memory

def ofFiles (files : List (Bytes × Bytes)) : Memory := files.map fun (path, content) => ⟨path, content, 0⟩

def file? (m : Memory) (path : Bytes) : Option MemoryFile := m.find? (·.path = path)

def read (m : Memory) (path : Bytes) : Except Fault Bytes :=
  match m.file? path with
  | some f => .ok f.content
  | none => .error (.within ("read " ++ path) (.category .absent))

/-- Replace the content of a file that exists. -/
def overwrite (m : Memory) (path content : Bytes) : Except Fault Memory :=
  match m.file? path with
  | some _ =>
    .ok (m.map fun f => if f.path = path then { f with content, writes := f.writes + 1 } else f)
  | none => .error (.within ("overwrite " ++ path) (.category .absent))

def store : Store Memory where
  read path m := (m.read path, m)
  overwrite path content m := match m.overwrite path content with
    | .ok m' => (.ok (), m')
    | .error e => (.error e, m)

end Memory

end Codemod.Workspace
