import Codemod.Total
import Codemod.Workspace.Store

namespace Codemod.Edit

open Workspace

/-- Changes waiting to be applied, by path. All changes of a path refer to the same content. -/
structure Batch where
  queued : List (Bytes × List Change)
  deriving DecidableEq, Repr

namespace Batch

def empty : Batch := ⟨[]⟩

/-- The changes of a path in the order in which they were added. -/
def pending (b : Batch) (path : Bytes) : List Change := (b.queued.lookup path).getD []

/-- Queue further changes for a path. -/
def add (b : Batch) (path : Bytes) (changes : List Change) : Batch :=
  if changes.isEmpty then b
  else if (b.queued.lookup path).isSome then
    ⟨b.queued.map fun (p, queued) => if p = path then (p, queued ++ changes) else (p, queued)⟩
  else ⟨b.queued ++ [(path, changes)]⟩

/-- The paths with changes, sorted. -/
def paths (b : Batch) : List Bytes := Bytes.sort (b.queued.map Prod.fst)

def size (b : Batch) : Nat := total (b.queued.map (·.2.length))

/-- What became of a batch: the changed paths with their number of changes, and the paths that
failed. -/
structure Flushed where
  changed : List (Bytes × Nat)
  errors : List (Bytes × Fault)

def Flushed.fault? (f : Flushed) : Option Fault := Fault.joined? (f.errors.map Prod.snd)

variable {σ : Type}

/-- Apply changes to one file. Says whether the file was written. A crash, which ends the program, is told as a fault
of the file. -/
def flushPath (store : Store σ) (path : Bytes) (changes : List Change) (tree : σ) :
    Except Fault Bool × σ :=
  match store.read path tree with
  | (.error e, tree) => (.error (.within ("read " ++ path) e), tree)
  | (.ok content, tree) =>
    match applyChanges content changes with
    | .error (.conflict e) => (.error (.conflict { e with path }), tree)
    | .error (.invalid e) => (.error (.within path (.misfit e)), tree)
    | .error (.crash stop) => (.error (.within path (.crash stop)), tree)
    | .ok updated =>
      if content = updated then (.ok false, tree)
      else match store.overwrite path updated tree with
        | (.error e, tree) => (.error (.within ("write " ++ path) e), tree)
        | (.ok _, tree) => (.ok true, tree)

/-- Apply the changes of every given path in turn. A path that fails does not stop the others. -/
def flushPaths (store : Store σ) (b : Batch) (cancelled : Bool) :
    List Bytes → σ → Flushed × σ
  | [], tree => (⟨[], []⟩, tree)
  | path :: rest, tree =>
    let (outcome, tree) : Except Fault Bool × σ :=
      if cancelled then (.error (.category .cancelled), tree)
      else flushPath store path (b.pending path) tree
    let (flushed, tree) := flushPaths store b cancelled rest tree
    match outcome with
    | .error e => (⟨flushed.changed, (path, e) :: flushed.errors⟩, tree)
    | .ok true => (⟨(path, (b.pending path).length) :: flushed.changed, flushed.errors⟩, tree)
    | .ok false => (flushed, tree)

/-- Apply every queued change, path by path in ascending order. -/
def flush (store : Store σ) (b : Batch) (cancelled : Bool) (tree : σ) : Flushed × σ :=
  flushPaths store b cancelled b.paths tree

/-- Flush a batch. Nothing waits in it afterwards. -/
def drain (store : Store σ) (b : Batch) (cancelled : Bool) (tree : σ) : Flushed × Batch × σ :=
  let (flushed, tree) := b.flush store cancelled tree
  (flushed, empty, tree)

end Batch

end Codemod.Edit
