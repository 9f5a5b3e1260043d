import Codemod.Edit.Batch
import Codemod.Log.Record
import Codemod.Migration.Rule
import Codemod.Total

namespace Codemod.Migration

open Edit Markup Workspace

/-- The outcome of a migration for one file. -/
structure FileState where
  path : Bytes
  kind : Kind
  /-- The groups with a stage that changed the file. -/
  touched : List String
  /-- The number of edits applied. -/
  changes : Nat
  /-- The stages that changed the file, in order. -/
  stages : List String
  /-- The stage at which the file was given up, and why. Later stages leave it alone. -/
  failure : Option (String × Fault)

def FileState.changed (s : FileState) : Bool := 0 < s.changes

structure StageResult where
  id : String
  changes : Nat
  files : List Bytes
  skipped : Bool
  deriving DecidableEq, Repr

/-- The outcome of a migration: its stages in order and the files they looked at. -/
structure Result where
  migration : Version
  stages : List StageResult
  states : List FileState

namespace Result

/-- The state of a file, unless no stage looked at it. -/
def file? (r : Result) (path : Bytes) : Option FileState := r.states.find? (·.path = path)

/-- Every file state, by path. -/
def files (r : Result) : List FileState := r.states.mergeSort fun a b => a.path.le b.path

def changed (r : Result) : List Bytes := (r.files.filter FileState.changed).map (·.path)

def failed (r : Result) : List FileState := r.files.filter (·.failure.isSome)

def fault? (r : Result) : Option Fault :=
  Fault.joined? (r.files.filterMap fun s => s.failure.map Prod.snd)

end Result

/-- The states of the files seen so far. -/
abbrev States := List FileState

namespace States

/-- The state of a file; a file seen for the first time starts without changes. -/
def get (s : States) (path : Bytes) (kind : Kind) : FileState :=
  (s.find? (·.path = path)).getD ⟨path, kind, [], 0, [], none⟩

/-- Begin the state of a file that has none. -/
def see (s : States) (path : Bytes) (kind : Kind) : States :=
  if s.any (·.path = path) then s else s ++ [⟨path, kind, [], 0, [], none⟩]

/-- Change the state of a file. -/
def update (s : States) (path : Bytes) (kind : Kind) (f : FileState → FileState) : States :=
  (s.see path kind).map fun x => if x.path = path then f x else x

def fail (s : States) (path : Bytes) (kind : Kind) (stage : String) (e : Fault) : States :=
  s.update path kind fun x => { x with failure := some (stage, e) }

end States

variable {σ : Type}

/-- What a stage asks of one file: its edits from a fresh reading. -/
def applyRule (stage : Stage) (content path : Bytes) (state : FileState) : Verdict :=
  let document : Except Fault (Option Document) :=
    if stage.rule.kind = .template then
      match Document.parse path content with
      | .ok d => .ok (some d)
      | .error e => .error (.filed .parseFailure (.malformed e))
    else .ok none
  match document with
  | .error e => ⟨.error e, false⟩
  | .ok document =>
    let touched := !stage.group.isEmpty && state.touched.contains stage.group
    let verdict := stage.rule.apply ⟨path, content, document, touched, false⟩
    let named (e : Fault) : Fault :=
      .filed .ruleFailure (.within (.concat [stage.rule.id, ": ", path]) e)
    ⟨verdict.edits.mapError named, verdict.cancels⟩

/-- A stage on its way through the files. -/
structure Progress (σ : Type) where
  tree : σ
  states : States
  batch : Batch
  cancelled : Bool
  log : List Log.Record

private def warning (message : String) (path : Bytes) (stage : String) (e : Fault) : Log.Record :=
  ⟨.warn, message, [("path", path), ("stage", bytes stage), ("error", e.message)]⟩

/-- Ask the rule about one file and queue its edits. -/
def visit (store : Store σ) (stage : Stage) (p : Progress σ) (path : Bytes) : Progress σ :=
  if p.cancelled then p
  else
    let kind := stage.rule.kind
    let id := stage.rule.id
    let states := p.states.see path kind
    let state := states.get path kind
    if state.failure.isSome then { p with states }
    else
      let (content, tree) := store.read path p.tree
      let verdict : Verdict := match content with
        | .error e => ⟨.error (.filed .readFailure e), false⟩
        | .ok content => applyRule stage content path state
      match verdict.edits with
      | .error e =>
        { p with
          tree, cancelled := verdict.cancels, states := states.fail path kind id e
          log := p.log ++ [warning "file skipped" path id e] }
      | .ok changes =>
        { p with tree, states, cancelled := verdict.cancels, batch := p.batch.add path changes }

/-- A flush fails as a write, unless the edits themselves are at fault. -/
def flushFault (e : Fault) : Fault :=
  if e.isConflict || e.isMisfit then e else .filed .writeFailure e

/-- Note what a flush did to the files. -/
def record (stage : Stage) (flushed : Batch.Flushed) (states : States) : States :=
  let kind := stage.rule.kind
  let id := stage.rule.id
  let states := flushed.errors.foldl (fun s (path, e) => s.fail path kind id (flushFault e)) states
  flushed.changed.foldl (fun s (path, applied) => s.update path kind fun x =>
    { x with
      changes := x.changes + applied
      stages := x.stages ++ [id]
      touched := if stage.group.isEmpty || x.touched.contains stage.group then x.touched
        else x.touched ++ [stage.group] }) states

/-- Run one stage over the files of its kind: ask the rule about each, then apply all edits. -/
def runStage (store : Store σ) (files : FileSet) (stage : Stage) (p : Progress σ) :
    StageResult × Progress σ :=
  let id := stage.rule.id
  let p := (files.files stage.rule.kind).foldl (visit store stage) { p with batch := .empty }
  let (flushed, batch, tree) := p.batch.drain store p.cancelled p.tree
  let warnings := flushed.errors.map fun (path, e) =>
    warning "file not written" path id (flushFault e)
  (⟨id, total (flushed.changed.map Prod.snd), flushed.changed.map Prod.fst, false⟩,
    { p with
      tree, batch, states := record stage flushed p.states, log := p.log ++ warnings })

/-- A migration on its way through its stages. -/
structure Run (σ : Type) where
  progress : Progress σ
  stages : List StageResult
  fault : Option Fault

/-- One record of a stage's end, under the name of the migration. -/
private def stageRecord (version : Version) (message : String) (fields : List (Bytes × Bytes)) :
    Log.Record :=
  ⟨.debug, message, ("migration", bytes version.toText) :: fields⟩

/-- Run the stages in order. A cancelled run stops before the next stage. -/
def runStages (store : Store σ) (disabled : List String) (files : FileSet) (version : Version) :
    List Stage → Progress σ → Run σ
  | [], p => ⟨p, [], none⟩
  | stage :: rest, p =>
    if p.cancelled then
      ⟨p, [], some (.within (.concat ["migration ", version.toText, " cancelled"]) (.category .cancelled))⟩
    else
      let id := stage.rule.id
      if disabled.contains id then
        let note := stageRecord version "stage disabled" [("stage", bytes id)]
        let run := runStages store disabled files version rest { p with log := p.log ++ [note] }
        { run with stages := ⟨id, 0, [], true⟩ :: run.stages }
      else
        let (result, p) := runStage store files stage p
        let note := stageRecord version "stage done"
          [("stage", bytes id), ("changes", .ofNat result.changes),
            ("files", .ofNat result.files.length)]
        let run := runStages store disabled files version rest { p with log := p.log ++ [note] }
        { run with stages := result :: run.stages }

/-- What is left of a migration run: its result, why it stopped early, the files and the log. -/
structure Outcome (σ : Type) where
  result : Result
  fault : Option Fault
  tree : σ
  cancelled : Bool
  log : List Log.Record

/-- Run a migration over files. Every stage reads the files afresh and its edits are applied
before the next one starts. A file that fails is left alone from then on. -/
def run (store : Store σ) (disabled : List String) (files : FileSet) (m : Migration)
    (cancelled : Bool) (tree : σ) : Outcome σ :=
  let r := runStages store disabled files m.version m.stages ⟨tree, [], .empty, cancelled, []⟩
  ⟨⟨m.version, r.stages, r.progress.states⟩, r.fault, r.progress.tree, r.progress.cancelled,
    r.progress.log⟩

end Codemod.Migration
