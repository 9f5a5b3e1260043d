import Codemod.Json.Value
import Codemod.Report.Options
import Codemod.Report.Phrase
import Codemod.Report.Table
import Codemod.Run.Result
import Codemod.Total

namespace Codemod.Report

open Run

/-- The style of a line of a diff. -/
def diffStyle (p : Palette) (line : Bytes) : Text.Style :=
  if line.startsWith "@@" then p.hunk
  else if line.startsWith "+" then p.added
  else if line.startsWith "-" then p.removed
  else p.context

/-- A line that names a file. -/
def isFileLine (line : Bytes) : Bool := line.startsWith "--- a/" || line.startsWith "+++ b/"

def renderDiffOf (o : Options) (d : Patch.Diff) : Bytes :=
  let p := o.palette
  let path := o.shownPath d.path
  let lines := (d.render.splitOn 10).filter fun line => !line.isEmpty && !isFileLine line
  .concat
    [p.diffHeader.render (.concat ["diff --git a/", path, " b/", path]), "\n",
      p.removed.render ("--- a/" ++ path), "\n", p.added.render ("+++ b/" ++ path), "\n",
      lines.flatMap fun line => (diffStyle p line).render line ++ bytes "\n", "\n"]

/-- The failures and a diff of each changed file. -/
def renderDiffs (o : Options) : Option Result → Bytes
  | none => []
  | some r =>
    let p := o.palette
    let failures := r.files.flatMap fun f =>
      match f.failure with
      | none => []
      | some e => Bytes.concat
        [p.path.render (o.shownPath f.path), ": ", p.error.render (.concat ["error: ", e.message]), "\n"]
    let added : Nat := total (r.diffs.map Patch.Diff.additions)
    let removed : Nat := total (r.diffs.map Patch.Diff.deletions)
    let totals : List Bytes :=
      .concat [counted r.diffs.length "file" "files", " changed"] ::
        (if 0 < added then
          [p.added.render (counted added "insertion" "insertions" ++ "(+)")] else []) ++
        (if 0 < removed then
          [p.removed.render (counted removed "deletion" "deletions" ++ "(-)")] else [])
    .concat
      [failures, r.diffs.flatMap (renderDiffOf o),
        if !r.diffs.isEmpty && o.summary then .join ", " totals ++ "\n" else []]

section Values

open Json (Value)

private def text (s : String) : Value := .string (bytes s)

private def fieldIf (shown : Bool) (name : String) (value : Value) : List (Bytes × Value) :=
  if shown then [(bytes name, value)] else []

private def fields (entries : List (String × Value)) : List (Bytes × Value) :=
  entries.map fun (name, value) => (bytes name, value)

def stageValue (o : Options) (s : StageSummary) : Value := .object
  (fields [("id", text s.id), ("changes", .ofInt s.changes),
    ("files", .array (s.files.map fun f => .string (o.shownPath f)))] ++
    fieldIf s.skipped "skipped" (.bool true))

def migrationValue (o : Options) (m : MigrationSummary) : Value := .object
  (fields [("version", text m.version), ("stages", .array (m.stages.map (stageValue o)))])

def outcomeValue (o : Options) (f : Outcome) : Value :=
  let reason := (f.failure.map Fault.message).getD []
  .object
    (fields [("path", .string (o.shownPath f.path)), ("kind", text f.kind.name), ("changes", .ofInt f.changes),
      ("stages", .array (f.stages.map text)), ("originalSize", .ofInt f.sizeBefore), ("size", .ofInt f.size)] ++
      fieldIf f.backup "backup" (.bool true) ++ fieldIf (!reason.isEmpty) "error" (.string reason) ++
      fieldIf (!f.failedStage.isEmpty) "failedStage" (text f.failedStage))

def statsNames : List String :=
  ["filesChecked", "templates", "styles", "sources", "filesModified", "filesFailed", "changesApplied", "stagesRun",
    "stagesSkipped", "bytesBefore", "bytesAfter", "backupsCreated"]

def statsValue (s : Stats) : Value := .object (fields (statsNames.zip (s.toList.map Value.ofInt)))

/-- The result as a value for other programs. -/
def resultValue (o : Options) (r : Option Result) : Value :=
  let part {α : Type} (empty : α) (f : Result → α) : α := (r.map f).getD empty
  .object (fields
    [("version", text "1.0.0"), ("from", text (part "" (·.fromVersion))), ("to", text (part "" (·.toVersion))),
      ("dryRun", .bool (part false (·.dryRun))),
      ("migrations", .array (part [] fun r => r.migrations.map (migrationValue o))),
      ("files", .array (part [] fun r => r.files.map (outcomeValue o))),
      ("summary", statsValue (part .zero (·.stats)))])

end Values

/-- A header, a line for each file and the totals. -/
def renderText (o : Options) : Option Result → Bytes
  | none => if o.summary then o.palette.success.render "Nothing to migrate." ++ "\n" else []
  | some r =>
    let p := o.palette
    .concat
      [p.runHeader r.fromVersion r.toVersion r.dryRun,
        r.files.flatMap fun f => p.outcomeLine f (o.shownPath f.path),
        if o.summary then
          .concat [if r.files.isEmpty then [] else "\n", p.totalsLine r.stats r.dryRun]
        else []]

def Format.render (f : Format) (o : Options) (r : Option Result) : Bytes :=
  match f with
  | .text => renderText o r
  | .json => Json.write o.compact (resultValue o r)
  | .diff => renderDiffs o r
  | .summary => renderSummary o r

/-- Report a result in the format asked for. -/
def render (o : Options) (r : Option Result) : Except Fault Bytes :=
  match if o.format.isEmpty then some .text else Format.ofName? o.format with
  | some f => .ok (f.render o r)
  | none => .error (.plain ("unsupported format: " ++ bytes o.format))

/-- The number of files that a run changed. -/
def changedCount (r : Option Result) : Int := (r.map (·.stats.filesModified)).getD 0

/-- How much is written at once. -/
def bufferSize : Nat := 65536

/-- Write a report where writing may be refused. Nothing is written of an empty report. -/
def deliver (o : Options) (refused : Option Fault) (output : Bytes) : Except Fault Bytes :=
  match refused with
  | none => .ok output
  | some e =>
    if output.isEmpty then .ok output
    else if o.format = "json" && bufferSize < output.length then .error (.within "encode JSON" e)
    else .error e

end Codemod.Report
