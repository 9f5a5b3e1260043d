import Codemod.Text.Bytes

namespace Codemod.Text

/-- Why a list cannot be read: there is none, or a quote stands where none may stand. A quote is
placed by the row where the list starts, its own row and its column. -/
inductive ListError where
  | nothing
  | bareQuote (start row column : Nat)
  | strayQuote (start row column : Nat)
  deriving DecidableEq, Repr

namespace ListError

def place (start row column : Nat) : Bytes := .concat
  [if start = row then [] else .concat ["record on line ", .ofNat start, "; "],
    "parse error on line ", .ofNat row, ", column ", .ofNat column, ": "]

def message : ListError → Bytes
  | nothing => "EOF"
  | bareQuote start row column => place start row column ++ "bare \" in non-quoted field"
  | strayQuote start row column => place start row column ++ "extraneous or missing \" in quoted-field"

end ListError

namespace CommaList

/-- A line without the carriage return before its end. -/
def plainEnd (line : Bytes) : Bytes :=
  if line.endsWith "\r\n" then line.dropTail "\r\n" ++ [10] else line

/-- The lines of a text with their ends. -/
def rows (s : Bytes) : List Bytes :=
  let pieces := s.splitOn 10
  let last := (pieces.getLast?.getD []).dropTail "\r"
  (pieces.dropLast.map fun line => plainEnd (line ++ [10])) ++
    (if (pieces.getLast?.getD []).isEmpty then [] else [last])

def isBlankRow (row : Bytes) : Bool := row = [] || row = [10]

/-- How far a list has been read. -/
structure Cursor where
  /-- What is left of the row. -/
  line : Bytes
  below : List Bytes
  row : Nat
  column : Nat

/-- Go forward in the row. -/
def Cursor.advance (c : Cursor) (n : Nat) : Cursor := { c with line := c.line.drop n, column := c.column + n }

/-- The row below. There may be none. -/
def Cursor.next (c : Cursor) : Cursor :=
  match c.below with
  | [] => { c with line := [], column := c.column + c.line.length }
  | line :: below => ⟨line, below, c.row + 1, 1⟩

/-- An item in quotes, after the first quote, and where the next one starts. A quote in it is
written twice; it may go over several rows. -/
def quotedItem (start : Nat) : Nat → Bytes → Cursor → Except ListError (Bytes × Option Cursor)
  | 0, _, c => .error (.strayQuote start c.row c.column)
  | fuel + 1, item, c =>
    match Bytes.indexOf? "\"" c.line with
    | some i =>
      let item := item ++ c.line.take i
      let after := c.advance (i + 1)
      match after.line with
      | [] => .ok (item, none)
      | b :: rest =>
        if b == '"' then quotedItem start fuel (item ++ "\"") (after.advance 1)
        else if b == ',' then .ok (item, some (after.advance 1))
        else if b == '\n' && rest.isEmpty then .ok (item, none)
        else .error (.strayQuote start after.row (after.column - 1))
    | none =>
      if c.line.isEmpty then .error (.strayQuote start c.row c.column)
      else quotedItem start fuel (item ++ c.line) c.next

/-- An item without quotes and where the next one starts. -/
def plainItem (start : Nat) (c : Cursor) : Except ListError (Bytes × Option Cursor) :=
  let comma := Bytes.indexOf? "," c.line
  let item := match comma with
    | some i => c.line.take i
    | none => c.line.dropTail "\n"
  match Bytes.indexOf? "\"" item with
  | some j => .error (.bareQuote start c.row (c.column + j))
  | none => .ok (item, comma.map fun i => c.advance (i + 1))

def items (start : Nat) : Nat → Cursor → Except ListError (List Bytes)
  | 0, _ => .ok []
  | fuel + 1, c => do
    let (item, next) ← if c.line.head?.any fun (b : UInt8) => b == '"' then
        quotedItem start (fuel + 1) [] (c.advance 1)
      else plainItem start c
    match next with
    | none => return [item]
    | some c => return item :: (← items start fuel c)

/-- The items between commas in the first row that is not blank. An item in quotes may hold commas,
quotes and line breaks. An empty text is an empty list. -/
def read (s : Bytes) : Except ListError (List Bytes) :=
  if s.isEmpty then .ok []
  else
    let all := rows s
    match all.dropWhile isBlankRow with
    | [] => .error .nothing
    | line :: below =>
      let start := all.length - below.length
      items start (2 * s.length + 2) ⟨line, below, start, 1⟩

end CommaList

end Codemod.Text
