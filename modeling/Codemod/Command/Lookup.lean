import Codemod.Command.Manual
import Codemod.Text.Bytes
import Codemod.Text.Lower

namespace Codemod.Text

/-- The distances from a text with one more byte to all beginnings of `t`, from those without it. -/
def extendDistances (t : Bytes) (row : List Nat) (a : UInt8) : List Nat :=
  ((t.zip (row.zip (row.drop 1))).foldl (fun (found : List Nat) (b, diagonal, above) =>
    let beside := found.headD 0
    min (min (beside + 1) (above + 1)) (if a == b then diagonal else diagonal + 1) :: found)
    [row.headD 0 + 1]).reverse

/-- The least number of bytes to put in, take out or replace that makes one text the other. -/
def editDistance (s t : Bytes) : Nat :=
  (s.foldl (extendDistances t) (List.range (t.length + 1))).getLastD 0

end Codemod.Text

namespace Codemod.Command

/-- A word is a flag whose value is the word behind it. -/
def wantsValue (flags : List Flag) (word : Bytes) : Bool :=
  word.startsWith "-" && !word.contains "=" &&
    if word.startsWith "--" then !(longFlag? flags (word.drop 2)).any Flag.standsAlone
    else word.length == 2 && !((word[1]?.bind (letterFlag? flags)).any Flag.standsAlone)

/-- The words that are neither flags nor values of flags. A last word behind a flag that wants a
value is that value. -/
def operandsAmong (flags : List Flag) (words : List Bytes) : List Bytes :=
  match words with
  | [] => []
  | word :: rest =>
    if word = "--" then []
    else if wantsValue flags word then
      if rest.length ≤ 1 then [] else operandsAmong flags (rest.drop 1)
    else if word.isEmpty || word.startsWith "-" then operandsAmong flags rest
    else word :: operandsAmong flags rest
termination_by words.length
decreasing_by all_goals grind

/-- The words without the first operand that equals one. -/
def withoutOperand (flags : List Flag) (operand : Bytes) (words : List Bytes) : List Bytes :=
  match words with
  | [] => []
  | word :: rest =>
    if word = "--" then word :: rest
    else if wantsValue flags word then word :: rest.take 1 ++ withoutOperand flags operand (rest.drop 1)
    else if word = operand then rest
    else word :: withoutOperand flags operand rest
termination_by words.length
decreasing_by all_goals grind

/-- Go from a command to the one that the words call, at most so many levels down. -/
def descend : Nat → Command → List Bytes → Command × List Bytes
  | 0, c, words => (c, words)
  | levels + 1, c, words =>
    match operandsAmong c.knownFlags words with
    | [] => (c, words)
    | operand :: _ =>
      match c.children.find? fun child => bytes child.name = operand with
      | some child => descend levels child (withoutOperand c.knownFlags operand words)
      | none => (c, words)

/-- The greatest distance of a name from what was meant. -/
def nearness : Nat := 2

/-- The commands that a user may have meant. -/
def proposals (typed : Bytes) : List Command :=
  root.children.filter fun c =>
    c != help && (Text.editDistance (Text.lower typed) c.name ≤ nearness ||
      Bytes.startsWith c.name (Text.lower typed))

def unknownCommand (typed : Bytes) : Fault :=
  let listed := (proposals typed).map fun c => Bytes.concat ["\t", c.name, "\n"]
  .plain (.concat
    ["unknown command ", Text.quote typed, " for ", Text.quote root.path,
      if listed.isEmpty then [] else .concat ["\n\nDid you mean this?\n", .concat listed]])

/-- The command that the words call, and the words that are left to it. -/
def lookup (words : List Bytes) : Except Fault (Command × List Bytes) :=
  match descend 3 root words with
  | (root, rest) =>
    match operandsAmong globalFlags rest with
    | typed :: _ => .error (unknownCommand typed)
    | [] => .ok (root, rest)
  | found => .ok found

end Codemod.Command
