import Codemod.Migration.Rule

namespace Codemod.Migration

open Edit Markup

/-- A rule given as data. Its parts are done in the order in which they stand here. -/
structure Script where
  /-- The paths that the rule is for; all if none are given. -/
  only : Option (List Bytes)
  /-- A failure to end with, unless it is empty. -/
  fail : Bytes
  /-- A text to insert into files that the group has changed before. -/
  whenTouched : Bytes
  /-- Elements to rename. -/
  rename : List (Bytes × Bytes)
  changes : List Change
  replaced : List (Span × Bytes)
  deleted : List Span
  cancels : Bool
  /-- Note whether the run is cancelled. -/
  notes : Bool

namespace Script

/-- The edits that rename every element of a name. -/
def renameEdits (d : Document) (pair : Bytes × Bytes) : List Change :=
  let name (start : Nat) : Change := .replaceSpan d.content ⟨start, start + pair.1.length⟩ pair.2
  (d.find (Element.named [pair.1])).flatMap fun e =>
    name (e.startTag.start + 1) :: e.endTag.toList.map fun s => name (s.start + 2)

/-- The renamings need a parsed document. -/
def renames (s : Script) (document : Option Document) : Except Fault (List Change) :=
  if s.rename.isEmpty then .ok []
  else match document with
    | some d => .ok (s.rename.flatMap (renameEdits d))
    | none => .error (.plain "script failure")

def apply (s : Script) (c : Context) : Verdict :=
  if s.only.any fun paths => !paths.contains c.path then ⟨.ok [], false⟩
  else if !s.fail.isEmpty then ⟨.error (.plain s.fail), false⟩
  else match s.renames c.document with
    | .error e => ⟨.error e, false⟩
    | .ok renames =>
      let touched : List Change :=
        if c.touched && !s.whenTouched.isEmpty then [.insert 0 s.whenTouched] else []
      let note : List Change := if !s.notes then []
        else [.insert 0 (if c.cancelled || s.cancels then "<!--cancelled-->" else "<!--live-->")]
      ⟨.ok (touched ++ renames ++ s.changes ++
        (s.replaced.map fun (span, text) => Change.replaceSpan c.content span text) ++
        s.deleted.map (Change.deleteSpan c.content) ++ note), s.cancels⟩

end Script

end Codemod.Migration
