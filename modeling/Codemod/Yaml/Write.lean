import Codemod.Text.Letter
import Codemod.Yaml.Scalar
import Codemod.Yaml.Source

namespace Codemod.Yaml

open Text (isLetter isDigit)

/-- What a written document is made of. -/
inductive Value where
  | switch (on : Bool)
  | text (s : String)
  | list (items : List String)
  | table (entries : List (String × Value))

/-- How a scalar is written. -/
inductive Style where
  | plain
  | single
  | double
  | literal
  deriving DecidableEq, Repr

def isLineEnd (c : Char) : Bool := c == '\r' || c == '\x85' || isBreak c

/-- The character can stand in a document as itself. -/
def isShown (c : Char) : Bool :=
  let n := c.toNat
  n == 10 || (32 ≤ n && n ≤ 126) || (0xa0 ≤ n && n < 0xfffe && n ≠ 0xfeff)

/-- An indicator inside a plain scalar: a colon in front of white space, or a hash after it. -/
def innerIndicator (before : Char) : List Char → Bool
  | [] => false
  | c :: s =>
    (c == ':' && (s.isEmpty || s.head?.any isBlank)) || (c == '#' && (isBlank before || isLineEnd before)) ||
      innerIndicator c s

/-- Something in the text has a meaning of its own outside of quotes. -/
def hasIndicator : List Char → Bool
  | [] => false
  | c :: s =>
    "---".toList.isPrefixOf (c :: s) || "...".toList.isPrefixOf (c :: s) ||
      ['#', ',', '[', ']', '\x7b', '\x7d', '&', '*', '!', '|', '>', '\'', '"', '%', '@', '\x60'].contains c ||
      ((c == '?' || c == ':' || c == '-') && (s.isEmpty || s.head?.any isBlank)) || innerIndicator c s

/-- Some character satisfies `p` and the next one `q`. -/
def hasPair (p q : Char → Bool) : List Char → Bool
  | a :: b :: s => (p a && q b) || hasPair p q (b :: s)
  | _ => false

private def isSpace (c : Char) : Bool := c == ' '

/-- White space at an end or a line break, which a plain scalar cannot hold. -/
def hasLooseEnds (s : List Char) : Bool :=
  s.head?.any isSpace || s.getLast?.any isSpace || s.any isLineEnd

/-- Characters that only escapes can write. -/
def needsEscapes (s : List Char) : Bool :=
  s.any (fun c => !isShown c) || hasPair isSpace isLineEnd s || hasPair isLineEnd isSpace s

/-- The lines of a text can be written as they are. -/
def fitsLiteral (s : List Char) : Bool :=
  !(s.getLast?.any isSpace || hasPair isSpace isLineEnd s || s.any fun c => !isShown c && c != '\t')

/-- The plainest style that keeps a text what it is. -/
def styleOf (text : String) : Style :=
  let s := text.toList
  let quoted := if needsEscapes s then Style.double else .single
  if s.contains '\n' then (if fitsLiteral s then .literal else .double)
  else if !meansItself text then .double
  else if hasLooseEnds s || hasIndicator s || needsEscapes s then quoted
  else .plain

def upperHex (width n : Nat) : String :=
  String.ofList (((List.range width).reverse.map fun i => (n / Nat.pow 16 i) % 16).map fun d =>
    if d < 10 then Char.ofNat (48 + d) else Char.ofNat (55 + d))

def shortEscapes : List (Nat × String) :=
  [(0, "0"), (7, "a"), (8, "b"), (9, "t"), (10, "n"), (11, "v"), (12, "f"), (13, "r"), (27, "e"),
    (34, "\""), (92, "\\"), (0x85, "N"), (0xa0, "_"), (0x2028, "L"), (0x2029, "P")]

/-- A character inside double quotes; `all` escapes those as well that need no escape. -/
def escaped (all : Bool) (c : Char) : String :=
  let n := c.toNat
  if !all && isShown c && !isLineEnd c && c != '"' && c != '\\' then c.toString
  else "\\" ++ match shortEscapes.lookup n with
    | some letter => letter
    | none =>
      if n ≤ 0xff then "x" ++ upperHex 2 n
      else if n ≤ 0xffff then "u" ++ upperHex 4 n
      else "U" ++ upperHex 8 n

/-- A text in double quotes. After a mark of the byte order every character is escaped. -/
def doubleText (text : String) : String :=
  let all := text.toList.head? == some '\ufeff'
  "\"" ++ String.join (text.toList.map (escaped all)) ++ "\""

def spaces (n : Nat) : String := String.ofList (List.replicate n ' ')

/-- A text between single quotes. A break is followed by the indentation of the next line. -/
def singleBody (indent : Nat) (fresh : Bool) : List Char → String
  | [] => ""
  | c :: s =>
    if isLineEnd c then c.toString ++ singleBody indent true s
    else (if fresh then spaces indent else "") ++ (if c == '\'' then "''" else c.toString) ++
      singleBody indent false s

/-- A text ends with several line breaks, or is one: all of them are kept. -/
def keepsBreaks (s : List Char) : Bool :=
  match s.reverse with
  | a :: rest => isLineEnd a && (rest.isEmpty || rest.head?.any isLineEnd)
  | [] => false

/-- The head of a literal: its indentation where the text hides it, and what becomes of the end. -/
def literalHead (s : List Char) : String :=
  let indent := if s.head?.any fun c => isSpace c || isLineEnd c then "2" else ""
  let chomp := if !s.getLast?.any isLineEnd then "-" else if keepsBreaks s then "+" else ""
  "|" ++ indent ++ chomp

/-- The lines of a literal, each with its indentation; `fresh` at the start of a line. -/
def literalBody (indent : Nat) (fresh : Bool) : List Char → String
  | [] => if fresh then "" else "\n"
  | c :: s =>
    if isLineEnd c then c.toString ++ literalBody indent true s
    else (if fresh then spaces indent else "") ++ c.toString ++ literalBody indent false s

/-- A scalar of something indented to `indent`, with the end of its line. -/
def writeScalar (indent : Nat) (text : String) : String :=
  match styleOf text with
  | .plain => text ++ "\n"
  | .single => "'" ++ singleBody (indent + 2) false text.toList ++ "'\n"
  | .double => doubleText text ++ "\n"
  | .literal =>
    let s := text.toList
    let lines := if s.head?.any isLineEnd then literalBody (indent + 2) false s
      else "\n" ++ literalBody (indent + 2) true s
    literalHead s ++ lines

/-- A key that stands on one line in front of its colon. -/
def isSimpleKey (text : String) : Bool := !text.toList.any isLineEnd && text.utf8ByteSize ≤ 128

/-- A key with its colon. One that is not simple has a line of its own in front of that of the
colon. -/
def writeKey (indent : Nat) (text : String) : String :=
  if !isSimpleKey text then "? " ++ writeScalar indent text ++ spaces indent ++ ":"
  else match styleOf text with
    | .single => "'" ++ singleBody 0 false text.toList ++ "':"
    | .double => doubleText text ++ ":"
    | _ => text ++ ":"

def writeItems (indent : Nat) (items : List String) : String :=
  String.join (items.map fun item => spaces indent ++ "- " ++ writeScalar indent item)

mutual

/-- A value after its key, with the space or line break between them. A list or table begins on
the line of a colon that stands alone. -/
def writeValue (indent : Nat) (simple : Bool) : Value → String
  | .switch on => (if on then " true\n" else " false\n")
  | .text s => " " ++ writeScalar indent s
  | .list [] => " []\n"
  | .list items => openedBy simple (writeItems (indent + 2) items)
  | .table [] => " \x7b\x7d\n"
  | .table entries => openedBy simple (writeEntries (indent + 2) entries)
where
  openedBy (simple : Bool) (lines : String) : String :=
    if simple then "\n" ++ lines else " " ++ String.ofList (lines.toList.drop (indent + 2))

def writeEntries (indent : Nat) : List (String × Value) → String
  | [] => ""
  | (key, value) :: rest =>
    spaces indent ++ writeKey indent key ++ writeValue indent (isSimpleKey key) value ++ writeEntries indent rest

end

/-- A document with a table at its top. -/
def write (entries : List (String × Value)) : String :=
  if entries.isEmpty then "\x7b\x7d\n" else writeEntries 0 entries

/-- The number that digits spell after what was there before, in 64 bits. -/
private def spelled (before : Int) (digits : List Char) : Int :=
  digits.foldl (fun n c => (n * 10 + ((c.toNat : Int) - 48)).bmod (Nat.pow 2 64)) before

/-- The order of keys: runs of digits by their value, and digits before letters. `seen` is what
both keys begin with, last character first. -/
def naturalLess (seen : List Char) : List Char → List Char → Bool
  | [], t => !t.isEmpty
  | _ :: _, [] => false
  | a :: s, b :: t =>
    if a = b then naturalLess (a :: seen) s t
    else if isLetter a && isLetter b then a < b
    else if isLetter a || isLetter b then
      (if seen.head?.any isDigit then isLetter a else isLetter b)
    else
      let lead := if (a == '0' || b == '0') && (seen.takeWhile isDigit).any (· != '0') then 1 else 0
      let digitsA := (a :: s).takeWhile isDigit
      let digitsB := (b :: t).takeWhile isDigit
      let m := spelled lead digitsA
      let n := spelled lead digitsB
      if m ≠ n then m < n
      else if digitsA.length ≠ digitsB.length then digitsA.length < digitsB.length
      else a < b

/-- Entries in the order of their keys. -/
def sortEntries {α : Type} (entries : List (String × α)) : List (String × α) :=
  entries.mergeSort fun x y => !naturalLess [] y.1.toList x.1.toList

end Codemod.Yaml
