import Codemod.Command.Lookup
import Codemod.Command.Restore
import Codemod.Command.Session
import Codemod.Command.Update
import Codemod.Json.Value
import Codemod.Release12.Stages
import Codemod.Settings.Load
import Codemod.Settings.Starter

namespace Codemod.Command

open Log Migration

section Listing

open Json (Value)

private def entry (name : String) (text : String) : Bytes × Value := (bytes name, .string (bytes text))

/-- A stage as a value for other programs. -/
def listedStage (stage : Stage) : Value := .object
  [entry "id" stage.rule.id, entry "name" stage.rule.name, entry "description" stage.rule.description,
    entry "kind" stage.rule.kind.name]

/-- A migration as a value for other programs. -/
def listedMigration (m : Migration) : Value := .object
  [entry "version" m.version.toText, entry "description" m.description,
    (bytes "stages", .array (m.stages.map listedStage))]

/-- A migration and its stages for a person. -/
def listedRecords (m : Migration) : List Record :=
  ⟨.info, m.version.toText,
    [("stages", .ofNat m.stages.length), ("description", m.description)]⟩ ::
  m.stages.map fun stage => ⟨.info, bytes ("  " ++ stage.rule.id),
    [("kind", stage.rule.kind.name), ("description", stage.rule.description)]⟩

/-- List the migrations of a registry. -/
def runMigrationList (r : Registry) (s : Session) (a : Arguments) : Reply :=
  if a.text? "format" = some "json" then
    match s.refusal with
    | some e => s.fail (.within "encoding migrations" e)
    | none => { s.quiet with output := Json.write false (.array (r.migrations.map listedMigration)) }
  else if r.migrations.isEmpty then
    { s.quiet with errors := personalLog.render ⟨.info, "no migrations registered", []⟩ }
  else { s.quiet with errors := personalLog.renderAll (r.migrations.flatMap listedRecords) }

end Listing

/-- Say which version of the program this is and how far it can migrate. -/
def runVersion (r : Registry) (s : Session) : Reply :=
  let latest := (r.latest?.map Version.toText).getD ""
  { s.quiet with
    output := s.print (plainLog.render ⟨.info, "ngmigrate",
      [("version", s.build.version), ("commit", s.build.commit), ("built", s.build.date), ("to", latest)]⟩) }

/-- The stages of all migrations as a new settings file lists them. -/
def stageNotes (r : Registry) : List Settings.StageNote :=
  r.migrations.flatMap fun m => m.stages.map fun stage =>
    ⟨m.version.toText, stage.rule.id, stage.rule.description⟩

/-- Write a settings file to start from. -/
def runInit (s : Session) (a : Arguments) : Reply :=
  let path := (a.text? "output").getD ".ngmigrate.yml"
  match s.files.absolute path with
  | .error e => s.fail (.within "resolve path" e)
  | .ok place =>
    match Settings.writeFile s.files place (Settings.starter (stageNotes Release12.registry)) (a.isOn "force") with
    | .error e => s.fail e
    | .ok files =>
      ⟨[], personalLog.renderAll
        [⟨.info, "created configuration file", [("path", path)]⟩,
          ⟨.info, "run 'ngmigrate migrations' to see what each stage does", []⟩], none, files⟩

/-- Show the help page of a command. That it cannot be written is said, but is no failure. -/
def showPage (s : Session) (c : Command) : Reply :=
  match s.refusal with
  | some e => { s.quiet with errors := e.message ++ "\n" }
  | none => { s.quiet with output := page s.look c }

/-- A word in back quotes, or in double quotes if it cannot stand in those. -/
def topic (word : Bytes) : Bytes :=
  let stands (x : UInt8 ⊕ Char) : Bool := x.elim (fun _ => false) fun c =>
    c == '\t' || (32 ≤ c.toNat && c != '\x60' && c != '\x7f' && c != '\ufeff')
  if (Text.scalars word).all stands then .concat ["\x60", word, "\x60"] else Text.quote word

/-- Show the help page of the command that the words call. -/
def runHelp (s : Session) (a : Arguments) : Reply :=
  match lookup a.operands with
  | .ok (c, _) => showPage s c
  | .error _ =>
    let note : Bytes := .concat
      ["Unknown help topic [", .join " " (a.operands.map topic), "]\n", usage s.look root false]
    if s.embedded then { s.quiet with output := s.print note } else { s.quiet with errors := note }

/-- Scripts for shells take no operands and are not made here. -/
def runScript (shell : Shell) (s : Session) (a : Arguments) : Reply :=
  match a.operands with
  | [] => s.fail (.plain "completion scripts are not available")
  | word :: _ =>
    s.fail (.plain (.concat ["unknown command ", Text.quote word, " for ", Text.quote (script shell).path]))

/-- Do what a command is for. -/
def run (c : Command) (s : Session) (a : Arguments) : Reply :=
  match c with
  | update => runUpdate s a
  | migrations => runMigrationList Release12.registry s a
  | restore => runRestore s a
  | init => runInit s a
  | version => runVersion Release12.registry s
  | help => runHelp s a
  | script shell => runScript shell s a
  | root => showPage s root
  | completion => showPage s completion

/-- Execute a command line, given without the name of the program. -/
def execute (s : Session) (words : List Bytes) : Reply :=
  match lookup words with
  | .error e => s.fail e
  | .ok (c, rest) =>
    match readArguments c.allFlags rest .empty with
    | .error e => s.fail e
    | .ok a => if a.isOn "help" || !c.isRunnable then showPage s c else c.run s a

/-- Execute a command line as the whole of a program, which says why it failed. Files that could not
be migrated have been reported by then. -/
def executeProgram (s : Session) (words : List Bytes) : Reply :=
  let reply := execute { s with embedded := false } words
  match reply.fault with
  | none => reply
  | some e =>
    if e.isA .migrationIncomplete then reply
    else { reply with
      errors := reply.errors ++ (workLog false).render ⟨.error, "command failed", [("error", e.message)]⟩ }

end Codemod.Command
