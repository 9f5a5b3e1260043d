import Codemod.Report.Options
import Codemod.Run.Result

namespace Codemod.Report

open Run

/-- One thing or several. -/
def plural (n : Int) (one many : String) : String := if n = 1 then one else many

/-- A number with what it counts. -/
def counted (n : Int) (one many : String) : Bytes := .concat [.ofInt n, " ", plural n one many]

namespace Palette

/-- The line that announces a run. -/
def runHeader (p : Palette) (source target : String) (dryRun : Bool) : Bytes := .concat
  [p.bold.render (.concat ["Migrating from ", source, " to ", target]),
    if dryRun then p.dim.render " (dry run)" else [], "\n"]

/-- A changed or failed file on a line. -/
def outcomeLine (p : Palette) (o : Outcome) (path : Bytes) : Bytes :=
  let head : Bytes := .concat ["  ", p.path.render path, "  "]
  match o.failure with
  | some e => .concat
    [head, p.error.render "failed",
      if o.failedStage.isEmpty then [] else .concat [" in ", p.stage.render o.failedStage],
      ": ", p.message.render e.message, "\n"]
  | none => .concat
    [head, p.success.render (counted o.changes "change" "changes"),
      if o.stages.isEmpty then []
      else .concat ["  ", p.stage.render (.concat
        ["(", .join ", " (o.stages.eraseDups.map bytes), ")"])],
      "\n"]

/-- The totals on one line. -/
def totalsLine (p : Palette) (s : Stats) (dryRun : Bool) : Bytes :=
  let modified := if s.filesModified = 0 then p.success.render "Nothing to migrate"
    else p.success.render (.concat
      [counted s.filesModified "file" "files", if dryRun then " would change (" else " migrated (",
        counted s.changesApplied "change" "changes", ")"])
  let failed := if 0 < s.filesFailed then [p.failure.render (.concat [.ofInt s.filesFailed, " failed"])] else []
  let skipped := if 0 < s.stagesSkipped then
    [p.warning.render (.concat [counted s.stagesSkipped "stage" "stages", " disabled"])] else []
  let checked := p.dim.render (.concat [counted s.filesDiscovered "file" "files", " checked"])
  .concat [.join ", " (modified :: failed ++ skipped ++ [checked]), "\n"]

/-- The totals as a block. -/
def totalsBlock (p : Palette) (s : Stats) (dryRun : Bool) : Bytes :=
  let row (label : String) (style : Text.Style) (n : Int) : Bytes := .concat [label, style.render (.ofInt n), "\n"]
  let rowIf (label : String) (style : Text.Style) (n : Int) : Bytes := if 0 < n then row label style n else []
  let verdict := if 0 < s.filesFailed then p.failure.render "Migration incomplete"
    else if dryRun then p.warning.render "Dry run, nothing written"
    else p.success.render "Migration complete"
  .concat
    ["\n", p.title.render "Summary", "\n", List.replicate 40 45, "\n",
      row "  Files checked:     " p.value s.filesDiscovered,
      row "    Templates:       " .plain s.templates,
      row "    Styles:          " .plain s.styles,
      row "    Sources:         " .plain s.sources,
      rowIf "  Files modified:    " p.success s.filesModified,
      rowIf "  Files failed:      " p.failure s.filesFailed,
      "\n",
      row "  Changes applied:   " p.value s.changesApplied,
      row "  Stages run:        " p.value s.stagesRun,
      rowIf "  Stages disabled:   " p.warning s.stagesSkipped,
      rowIf "  Backups created:   " p.value s.backupsCreated,
      "\n", verdict, "\n"]

end Palette

end Codemod.Report
