import Codemod.Markup.Query
import Codemod.Version
import Codemod.Workspace.Kind

namespace Codemod

open Edit Markup Workspace

namespace Migration

/-- What a rule sees of one file. -/
structure Context where
  path : Bytes
  content : Bytes
  /-- The parsed content of a template. -/
  document : Option Document
  /-- An earlier stage of the same group changed the file in this migration. -/
  touched : Bool
  cancelled : Bool

/-- The edits a rule asks for, and whether it cancels the run. -/
structure Verdict where
  edits : Except Fault (List Change)
  cancels : Bool

/-- One step of a migration for one kind of file. -/
structure Rule where
  id : String
  name : String
  description : String
  kind : Kind
  apply : Context → Verdict

/-- A rule that always succeeds. -/
def Rule.pure (id name description : String) (kind : Kind) (edits : Context → List Change) : Rule :=
  ⟨id, name, description, kind, fun c => ⟨.ok (edits c), false⟩⟩

/-- A rule for templates that always succeeds. -/
def Rule.template (id name description : String) (edits : Document → Bool → List Change) : Rule :=
  .pure id name description .template fun c =>
    match c.document with
    | some d => edits d c.touched
    | none => []

/-- A rule with the group whose earlier changes it is told about; the empty group has none. -/
structure Stage where
  rule : Rule
  group : String

/-- A migration whose version has not been read. -/
structure Draft where
  version : String
  description : String
  stages : List Stage

end Migration

/-- The stages, in order, that bring a project to a version. -/
structure Migration where
  version : Version
  description : String
  stages : List Migration.Stage

namespace Migration

def Draft.check (d : Draft) : Except Fault Migration := do
  let version ← Version.ofString d.version
  return ⟨version, d.description, d.stages⟩

def stageIds (m : Migration) : List String := m.stages.map (·.rule.id)

end Migration

end Codemod
