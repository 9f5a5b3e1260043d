import Codemod.Text.Utf8

namespace Codemod.Yaml

/-- What is left of a text and the place of its first character, counted from zero. -/
structure Source where
  rest : List Char
  index : Nat
  line : Nat
  column : Nat
  /-- The text begins with a mark of the byte order. -/
  marked : Bool
  /-- What follows the rest cannot be read. -/
  flawed : Bool

/-- Breaks of a line. The other characters that end lines are read as the first of these. -/
def isBreak (c : Char) : Bool := c == '\n' || c == '\u2028' || c == '\u2029'

def isBlank (c : Char) : Bool := c == ' ' || c == '\t'

/-- Nothing, white space or a line break comes next. -/
def endsToken : List Char → Bool
  | [] => true
  | c :: _ => isBlank c || isBreak c

namespace Source

/-- Move past one character. -/
def next (s : Source) : Source :=
  match s.rest with
  | [] => s
  | c :: rest =>
    if isBreak c then { s with rest, index := s.index + 1, line := s.line + 1, column := 0 }
    else { s with rest, index := s.index + 1, column := s.column + 1 }

def skip (n : Nat) (s : Source) : Source :=
  match n with
  | 0 => s
  | n + 1 => skip n s.next

def skipWhile (p : Char → Bool) (s : Source) : Source := s.skip (s.rest.takeWhile p).length

/-- A line at the margin that separates documents. -/
def atMarker (s : Source) : Bool :=
  s.column == 0 && ("---".toList.isPrefixOf s.rest || "...".toList.isPrefixOf s.rest) &&
    endsToken (s.rest.drop 3)

/-- Fewer than `n` characters can be seen because what follows them cannot be read. -/
def obscured (n : Nat) (s : Source) : Bool := s.flawed && (s.rest.drop (n - 1)).isEmpty

/-- Move past a comment to the end of its line, and past the comments on the lines below. -/
def skipComments (s : Source) : Nat → Source
  | 0 => s
  | n + 1 =>
    let s := s.skipWhile (!isBreak ·)
    let gap := s.rest.takeWhile fun c => isBlank c || c == '\n'
    if s.rest.head? == some '\n' && (s.rest.drop gap.length).head? == some '#' then
      skipComments (s.skip gap.length) n
    else s

/-- A comment on the rest of the line. -/
def skipLineComment (s : Source) : Source :=
  let after := s.skipWhile isBlank
  if after.rest.head? == some '#' then after.skipWhile (!isBreak ·) else s

/-- In a text with a mark of the byte order, one character at the margin of each line counts as
such a mark. -/
def skipMark (s : Source) : Source :=
  match s.rest with
  | _ :: rest =>
    if s.marked && s.column == 0 && !(rest.drop 2).isEmpty then
      { s with rest, index := s.index + 1, column := 1 }
    else s
  | [] => s

/-- Move over white space, comments and line breaks to the next token. Tabs are no white space
where a key can begin, outside of brackets a line can always begin with one. -/
def toToken (flow keyAllowed : Bool) (s : Source) : Nat → Source × Bool
  | 0 => (s, keyAllowed)
  | n + 1 =>
    let s := s.skipMark.skipWhile fun c => c == ' ' || (c == '\t' && (flow || !keyAllowed))
    let s := if s.rest.head? == some '#' then s.skipComments s.rest.length else s
    if s.rest.head?.any isBreak then s.next.toToken flow (keyAllowed || !flow) n
    else (s, keyAllowed)

end Source

/-- White space between two words: the blanks before a break, or the breaks. -/
structure Gap where
  blanks : List Char
  breaks : List Char

namespace Gap

def empty : Gap := ⟨[], []⟩

def crosses (g : Gap) : Bool := !g.breaks.isEmpty

/-- What stands for a gap in a folded text. A single break is a space; of several the first is
dropped. A first break of another kind is kept with the others. -/
def text (g : Gap) : List Char :=
  match g.breaks with
  | [] => g.blanks
  | ['\n'] => [' ']
  | '\n' :: more => more
  | breaks => breaks

end Gap

end Codemod.Yaml
