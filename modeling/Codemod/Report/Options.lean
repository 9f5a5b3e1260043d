import Codemod.Fault
import Codemod.Files.Path
import Codemod.Text.Style

namespace Codemod.Report

open Files Text

/-- The styles of a report. -/
structure Palette where
  error : Style
  warning : Style
  path : Style
  stage : Style
  message : Style
  diffHeader : Style
  hunk : Style
  added : Style
  removed : Style
  context : Style
  title : Style
  value : Style
  success : Style
  failure : Style
  tableHeader : Style
  errorRow : Style
  separator : Style
  dim : Style
  bold : Style

namespace Palette

def plain : Palette :=
  ⟨.plain, .plain, .plain, .plain, .plain, .plain, .plain, .plain, .plain, .plain, .plain, .plain, .plain, .plain,
    .plain, .plain, .plain, .plain, .plain⟩

def colored : Palette where
  error := .boldColor "91"
  warning := .boldColor "93"
  path := .bold
  stage := .color "90"
  message := .plain
  diffHeader := .bold
  hunk := .color "96"
  added := .color "92"
  removed := .color "91"
  context := .color "90"
  title := .bold
  value := .plain
  success := .boldColor "92"
  failure := .boldColor "91"
  tableHeader := .boldColor "37"
  errorRow := .color "91"
  separator := .color "90"
  dim := .color "90"
  bold := .bold

def ofColor (colored : Bool) : Palette := if colored then Palette.colored else plain

/-- Color is used when asked for. Output that goes to no terminal has none by itself. -/
def wantsColor (mode : String) : Bool := mode = "always"

end Palette

inductive Format where
  | text
  | json
  | diff
  | summary
  deriving DecidableEq, Repr

namespace Format

def name : Format → String
  | text => "text"
  | json => "json"
  | diff => "diff"
  | summary => "summary"

def all : List Format := [text, json, diff, summary]

def ofName? (name : String) : Option Format := all.find? (·.name = name)

/-- The format that a user asks for; nothing asks for text. -/
def parse (name : String) : Except Fault Format :=
  if name.isEmpty then .ok text
  else match ofName? name with
    | some f => .ok f
    | none => .error (.plain (.concat
      ["unknown format ", Text.quote name, "; valid formats: text, json, diff, summary"]))

end Format

/-- How a report looks. -/
structure Options where
  format : String
  color : String
  /-- Totals follow the results. -/
  summary : Bool
  compact : Bool
  /-- Paths below this directory are shown relative to it. -/
  workingDirectory : Bytes
  deriving DecidableEq, Repr

def Options.standard : Options := ⟨"text", "auto", true, false, []⟩

def Options.palette (o : Options) : Palette := .ofColor (Palette.wantsColor o.color)

/-- A path as a reader sees it. -/
def Options.shownPath (o : Options) (path : Bytes) : Bytes :=
  if o.workingDirectory.isEmpty || !Path.isAbsolute path then path
  else match Path.relative? o.workingDirectory path with
    | none => path
    | some shown => if shown = ".." || shown.startsWith "../" then path else shown

end Codemod.Report
