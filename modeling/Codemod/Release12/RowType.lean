import Codemod.Edit.Change
import Codemod.Release12.Import

namespace Codemod.Release12

open Edit Markup

/-- The grid row components that one type replaces. -/
def rowComponents : List Bytes :=
  ["IgxGridGroupByRowComponent", "IgxGridRowComponent", "IgxHierarchicalRowComponent",
    "IgxTreeGridRowComponent"]

def rowTypeName : Bytes := "RowType"

/-- A row component name at a place, with the place behind it. -/
def rowComponentAt? (c : Cursor) : Option (Bytes × Cursor) :=
  rowComponents.findSome? fun name => (Cursor.literal? name c).map (name, ·)

/-- A cast to a row component that ends in a semicolon or a parenthesis, or a type annotation
with one. -/
def typingAt? (previous : Option UInt8) (c : Cursor) : Option (Change × Nat) :=
  let cast : Option (Change × Nat) := do
    guard (!previous.any Bytes.isWord)
    let name ← (Cursor.literal? "as" c).bind skipBlank?
    let (old, stop) ← rowComponentAt? name
    let last := stop.skip isSpace
    guard (last.rest.head?.any fun (x : UInt8) => x == ';' || x == ')')
    return (.replace name.pos old rowTypeName, last.pos + 1)
  let annotation : Option (Change × Nat) := do
    let name := (← Cursor.literal? ":" c).skip isSpace
    let (old, stop) ← rowComponentAt? name
    guard (!stop.rest.head?.any Bytes.isWord)
    return (.replace name.pos old rowTypeName, stop.pos)
  cast <|> annotation

/-- Whether each entry of a list goes away, and the edit of the one that becomes the row type.
Old names go away once the row type is imported. -/
def markSpecifiers : Bool → List Specifier → Bool × List (Specifier × Bool) × List Change
  | imported, [] => (imported, [], [])
  | imported, s :: rest =>
    let old := rowComponents.contains s.text
    let (last, marked, changes) := markSpecifiers (imported || old) rest
    if old && !imported then (last, (s, false) :: marked, .replace s.span.start s.text rowTypeName :: changes)
    else (last, (s, old) :: marked, changes)

/-- Delete marked entries with their separators. Those before the last kept entry go up to the
next entry; those after it go from its end. -/
def removeSpecifiers (content : Bytes) (marked : List (Specifier × Bool)) : List Change :=
  let kept := marked.reverse.dropWhile (·.2)
  let count := kept.length
  let inner := (marked.zip (marked.drop 1)).take (count - 1)
  let innerChanges := (inner.filter (·.1.2)).map fun ((s, _), (next, _)) =>
    Change.deleteSpan content ⟨s.span.start, next.span.start⟩
  match kept.head?, marked.getLast? with
  | some (lastKept, _), some (last, true) =>
    innerChanges ++ [.deleteSpan content ⟨lastKept.span.stop, last.span.stop⟩]
  | _, _ => innerChanges

/-- The edits of the library's import lists. A list that loses all its entries goes away. -/
def importEdits (content : Bytes) : Bool → List ImportDeclaration → List Change
  | _, [] => []
  | imported, d :: rest =>
    let (imported, marked, changes) := markSpecifiers imported d.specifiers
    let removals := if !marked.isEmpty && marked.all (·.2) then [Change.deleteSpan content d.span]
      else removeSpecifiers content marked
    changes ++ removals ++ importEdits content imported rest

def typingEdits (content : Bytes) : List Change :=
  (scanMatches typingAt? none 0 0 content).map Prod.snd

/-- Replace the row components in library imports, then in type positions. A file that imports
nothing from the library is left alone. -/
def replaceRowTypes (content : Bytes) : List Change :=
  match libraryImports content with
  | [] => []
  | imports =>
    let imported := imports.any fun d => d.specifiers.any (·.text = rowTypeName)
    importEdits content imported imports ++ typingEdits content

end Codemod.Release12
