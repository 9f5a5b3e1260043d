import Codemod.Command.Manual
import Codemod.Files.FileSystem
import Codemod.Log.Render
import Codemod.Text.Style

namespace Codemod.Command

open Text (Style)

/-- The styles of a help page. -/
structure Look where
  heading : Style
  command : Style
  flag : Style
  dim : Style

namespace Look

def plain : Look := ⟨.plain, .plain, .plain, .plain⟩

def colored : Look := ⟨.boldColor "93", .boldColor "96", .color "94", .color "90"⟩

def ofColor (colored : Bool) : Look := if colored then Look.colored else plain

end Look

/-- The word for the value of a flag. -/
def FlagKind.placeholder : FlagKind → String
  | switch => ""
  | text _ => "string"
  | list => "strings"

/-- A value that a flag has unless given, if there is one to speak of. -/
def FlagKind.standardNote : FlagKind → Bytes
  | text standard => if standard.isEmpty then [] else .concat [" (default ", Text.quote standard, ")"]
  | _ => []

/-- A flag on a line. -/
def Flag.line (l : Look) (f : Flag) : Bytes :=
  let long := l.flag.render ("--" ++ f.name)
  let names := match f.letter with
    | some letter => Bytes.concat ["  ", l.flag.render ("-" ++ letter.toString), ", ", long]
    | none => bytes "      " ++ long
  let value := if f.kind.placeholder.isEmpty then [] else bytes " " ++ l.dim.render f.kind.placeholder
  .concat [names, value, "   ", f.usage, f.kind.standardNote]

/-- Flags by name, one on a line under a heading. -/
def flagSection (l : Look) (title : String) (flags : List Flag) : Bytes :=
  if flags.isEmpty then []
  else .concat ["\n\n", l.heading.render title, "\n",
    .join "\n" ((flags.mergeSort fun f g => Bytes.le f.name g.name).map (Flag.line l))]

/-- The width of the names in a list of commands. -/
def nameWidth : Nat := 11

def childLine (l : Look) (c : Command) : Bytes :=
  let name := bytes c.name
  .concat ["\n  ", l.command.render (name ++ List.replicate (nameWidth - name.length) 32), " ", c.summary]

/-- How to call a command. Its own flag for help is shown if the command was asked for. -/
def usage (l : Look) (c : Command) (withHelp : Bool) : Bytes :=
  let shown := c.children.mergeSort fun a b => Bytes.le a.name b.name
  let global := if c = root then globalFlags else []
  .concat
    [l.heading.render "Usage:",
      if c.isRunnable then "\n  " ++ l.command.render c.useLine else [],
      if shown.isEmpty then [] else .concat
        ["\n  ", l.command.render c.path, " [command]\n\n", l.heading.render "Commands:",
          .concat (shown.map (childLine l))],
      flagSection l "Flags:" (c.ownFlags ++ global ++ if withHelp then [c.helpFlag] else []),
      flagSection l "Global Flags:" (if c = root then [] else globalFlags),
      if shown.isEmpty then [] else .concat
        ["\n\nUse \"", l.command.render (c.path ++ " [command] --help"),
          "\" for more information about a command."],
      "\n"]

/-- The help page of a command. -/
def page (l : Look) (c : Command) : Bytes := .concat [c.manual, "\n\n", usage l c true]

open Files Log

/-- What the program says about itself. -/
structure Build where
  version : Bytes
  commit : Bytes
  date : Bytes

def Build.unreleased : Build := ⟨"dev", "none", "unknown"⟩

/-- Where and how a command runs. -/
structure Session where
  files : FileSystem
  environment : Environment
  input : Bytes
  /-- The input comes from a person. -/
  terminal : Bool
  cancelled : Bool
  /-- Why nothing can be written to the output. -/
  refusal : Option Fault
  look : Look
  /-- The caller takes notes on usage as output; a program of its own sends them where errors go. -/
  embedded : Bool
  build : Build

/-- What a command leaves. -/
structure Reply where
  output : Bytes
  errors : Bytes
  fault : Option Fault
  files : FileSystem

namespace Session

/-- Nothing said and nothing done. -/
def quiet (s : Session) : Reply := ⟨[], [], none, s.files⟩

def fail (s : Session) (e : Fault) : Reply := { s.quiet with fault := some e }

/-- Text for the output, which is lost when nothing can be written. -/
def print (s : Session) (text : Bytes) : Bytes := if s.refusal.isSome then [] else text

end Session

/-- The log of the work itself. -/
def workLog (debug : Bool) : Logger := ⟨if debug then .debug else .info, []⟩

/-- The log for the person at the terminal. -/
def personalLog : Logger := ⟨.info, "ngmigrate"⟩

/-- The log that a version is printed to. -/
def plainLog : Logger := ⟨.info, []⟩

end Codemod.Command
