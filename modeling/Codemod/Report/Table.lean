import Codemod.Report.Options
import Codemod.Report.Phrase
import Codemod.Text.Bytes

namespace Codemod.Report

open Run

/-- Round a quotient to the nearest integer, a half to the even one. -/
def roundHalfEven (n d : Nat) : Nat :=
  let q := n / d
  let r := n % d
  if 2 * r < d then q else if d < 2 * r then q + 1 else if q % 2 = 0 then q else q + 1

/-- The power of a thousand in a number. -/
def thousands : Nat → Nat → Nat
  | 0, _ => 0
  | n + 1, size => if size < 1000 then 0 else thousands n (size / 1000) + 1

/-- The unit of a size is found to fifteen digits: a size that falls short of a power of a thousand
by less than that counts as the power. -/
def unitPower (size : Nat) : Nat := thousands 6 (size + size / 200000000000000)

/-- A size with a unit: one decimal below ten units, none from there on. -/
def sizeText (size : Nat) : Bytes :=
  if size < 10 then .concat [.ofNat size, " B"]
  else
    let e := unitPower size
    let unit := ["B", "kB", "MB", "GB", "TB", "PB", "EB"].getD e "EB"
    let one := Nat.pow 1000 e
    let tenths := (size * 20 + one) / (2 * one)
    if tenths < 100 then .concat [.ofNat (tenths / 10), ".", .ofNat (tenths % 10), " ", unit]
    else .concat [.ofNat (roundHalfEven tenths 10), " ", unit]

/-- Sizes are 64-bit words. -/
def wordSize (size : Int) : Nat := (size % 0x10000000000000000).toNat

/-- A difference of sizes with its sign. -/
def deltaText (delta : Int) : Bytes :=
  if 0 < delta then "+" ++ sizeText (wordSize delta)
  else if delta < 0 then "-" ++ sizeText (wordSize (-delta))
  else "0 B"

/-- The width of tables where no terminal sets one. -/
def tableWidth : Nat := 100

def padRight (s : Bytes) (width : Nat) : Bytes := s ++ List.replicate (width - s.length) 32

def padLeft (s : Bytes) (width : Nat) : Bytes := List.replicate (width - s.length) 32 ++ s

/-- The end of a text that is too long, behind an ellipsis. -/
def truncateLeft (s : Bytes) (width : Nat) : Bytes :=
  if s.length ≤ width then s else "…" ++ s.drop (s.length - (width - 1))

private def countWidth : Nat := 8

private def sizeWidth : Nat := 10

private def statusWidth : Nat := 9

private def stageWidth : Nat := tableWidth - 2 * (countWidth + 1) - statusWidth - 1

private def fileWidth : Nat := tableWidth - countWidth - 3 * (sizeWidth + 1) - 1

/-- The cells of a row. -/
def row (cells : List Bytes) : Bytes := .join " " cells ++ "\n"

def separator (p : Palette) : Bytes :=
  p.separator.render ((List.replicate tableWidth '─').flatMap String.utf8EncodeChar) ++ "\n"

/-- The title and the headings of a table. -/
def tableHead (p : Palette) (title : String) (headings : List Bytes) : Bytes := .concat
  [p.bold.render title, "\n", separator p, row (headings.map p.tableHeader.render), separator p]

def stageRow (p : Palette) (s : StageSummary) : Bytes :=
  let name := padRight ("  " ++ truncateLeft s.id (stageWidth - 2)) stageWidth
  let counts := [padLeft (.ofInt s.changes) countWidth, padLeft (.ofNat s.files.length) countWidth]
  if s.skipped then row (p.dim.render name :: counts ++ [p.warning.render (padLeft "disabled" statusWidth)])
  else if 0 < s.changes then row (name :: counts ++ [p.success.render (padLeft "changed" statusWidth)])
  else row (name :: counts ++ [padLeft "ran" statusWidth])

def stageTable (p : Palette) (migrations : List MigrationSummary) : Bytes := .concat
  [tableHead p "Stages"
      [padRight "Stage" stageWidth, padLeft "Changes" countWidth, padLeft "Files" countWidth,
        padLeft "Status" statusWidth],
    migrations.flatMap fun m => Bytes.concat
      [p.title.render ("v" ++ bytes m.version), "\n", m.stages.flatMap (stageRow p)]]

def fileRow (o : Options) (p : Palette) (f : Outcome) : Bytes :=
  let path := padRight (truncateLeft (o.shownPath f.path) fileWidth) fileWidth
  if f.failure.isSome then
    let status : Bytes := if f.failedStage.isEmpty then "failed" else .concat ["failed in ", f.failedStage]
    row [p.errorRow.render path, p.error.render status]
  else row
    [path, padLeft (.ofInt f.changes) countWidth, padLeft (sizeText (wordSize f.sizeBefore)) sizeWidth,
      padLeft (sizeText (wordSize f.size)) sizeWidth, padLeft (deltaText (f.size - f.sizeBefore)) sizeWidth]

def fileTable (o : Options) (p : Palette) (files : List Outcome) : Bytes := .concat
  [tableHead p "Files"
      [padRight "File" fileWidth, padLeft "Changes" countWidth, padLeft "Before" sizeWidth,
        padLeft "After" sizeWidth, padLeft "Delta" sizeWidth],
    files.flatMap (fileRow o p)]

/-- A table of stages, one of files and the totals. -/
def renderSummary (o : Options) : Option Result → Bytes
  | none => o.palette.success.render "Nothing to migrate." ++ "\n"
  | some r =>
    let p := o.palette
    .concat
      [p.runHeader r.fromVersion r.toVersion r.dryRun, "\n", stageTable p r.migrations,
        if r.files.isEmpty then [] else "\n" ++ fileTable o p r.files, p.totalsBlock r.stats r.dryRun]

end Codemod.Report
