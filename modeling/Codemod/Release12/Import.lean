import Codemod.Markup.Token
import Codemod.Text.Blank

namespace Codemod.Release12

open Markup

/-- An entry of an import list, without the white space around it. -/
structure Specifier where
  text : Bytes
  span : Span
  deriving DecidableEq, Repr

structure ImportDeclaration where
  /-- With a directly following semicolon and line break. -/
  span : Span
  specifiers : List Specifier
  deriving DecidableEq, Repr

/-- Move over at least one byte of white space. -/
def skipBlank? (c : Cursor) : Option Cursor :=
  if c.rest.head?.any isSpace then some (c.skip isSpace) else none

/-- Move over a quote of either kind. -/
def skipQuote? (c : Cursor) : Option Cursor :=
  if c.rest.head?.any isQuote then some ⟨c.pos + 1, c.rest.drop 1⟩ else none

/-- An import of a list of names: where the list and the module name lie, and the place behind. -/
structure ImportMatch where
  list : Span
  module : Span
  next : Cursor

/-- Read an import of a list of names, up to the quote after the module name. -/
def importAt? (c : Cursor) : Option ImportMatch := do
  let c ← c.literal? "import"
  let c ← skipBlank? c
  let typed := do skipBlank? (← Cursor.literal? "type" c)
  let list ← Cursor.literal? "\x7b" (typed.getD c)
  let listEnd := list.skip (· != ('\x7d' : Char).toUInt8)
  let c ← Cursor.literal? "\x7d" listEnd
  let c ← Cursor.literal? "from" (c.skip isSpace)
  let module ← skipQuote? (c.skip isSpace)
  let moduleEnd := module.skip (!isQuote ·)
  guard (module.pos < moduleEnd.pos)
  let next ← skipQuote? moduleEnd
  return ⟨⟨list.pos, listEnd.pos⟩, ⟨module.pos, moduleEnd.pos⟩, next⟩

/-- All matches of a pattern from left to right; `skip` bytes belong to the match before. The
pattern sees the byte in front of it. -/
def scanMatches {α : Type} (pattern : Option UInt8 → Cursor → Option (α × Nat)) (previous : Option UInt8)
    (pos skip : Nat) : Bytes → List (Nat × α)
  | [] => []
  | c :: s =>
    if skip ≠ 0 then scanMatches pattern (some c) (pos + 1) (skip - 1) s
    else match pattern previous ⟨pos, c :: s⟩ with
      | some (found, stop) => (pos, found) :: scanMatches pattern (some c) (pos + 1) (stop - pos - 1) s
      | none => scanMatches pattern (some c) (pos + 1) 0 s

/-- The entries of an import list, without empty ones. -/
def specifiers (content : Bytes) (list : Span) : List Specifier :=
  ((Bytes.splitOn ',' (list.text content)).foldl (fun (pos, found) piece =>
    let trimmed := Text.trimBytes piece
    let start := pos + (Bytes.indexOf? trimmed piece).getD 0
    (pos + piece.length + 1,
      if trimmed.isEmpty then found else found ++ [⟨trimmed, ⟨start, start + trimmed.length⟩⟩]))
    (list.start, [])).2

/-- The end of a declaration with its semicolon and line break. -/
def declarationStop (c : Cursor) : Nat :=
  let c := (Cursor.literal? ";" c).getD c
  ((Cursor.literal? "\r\n" c).getD ((Cursor.literal? "\n" c).getD c)).pos

/-- The imports from the library. -/
def libraryImports (content : Bytes) : List ImportDeclaration :=
  (scanMatches (fun _ c => (importAt? c).map fun m => (m, m.next.pos)) none 0 0 content).filterMap
    fun (start, m) =>
      if (m.module.text content).contains "igniteui-angular" then
        some ⟨⟨start, declarationStop m.next⟩, specifiers content m.list⟩
      else none

end Codemod.Release12
