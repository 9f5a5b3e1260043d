import Codemod.Yaml.Problem
import Codemod.Yaml.Source

namespace Codemod.Yaml

/-- What happens to the line breaks at the end of a block scalar. -/
inductive Chomp where
  | strip
  | clip
  | keep
  deriving DecidableEq, Repr

/-- The head of a block scalar: how its end is chomped and its indentation if given. -/
structure BlockHead where
  chomp : Chomp
  indent : Option Nat

private def chompOf? (c : Char) : Option Chomp :=
  if c == '+' then some .keep else if c == '-' then some .strip else none

private def digitOf? (c : Char) : Option Nat := if c.isDigit then some (c.toNat - 48) else none

/-- The marks after the sign of a block scalar, in either order, and their number. -/
def BlockHead.read (s : List Char) : BlockHead × Nat :=
  let first := s.head?
  let second := (s.drop 1).head?
  match first.bind chompOf?, first.bind digitOf?, second.bind chompOf?, second.bind digitOf? with
  | some m, _, _, some d => (⟨m, some d⟩, 2)
  | some m, _, _, none => (⟨m, none⟩, 1)
  | none, some d, some m, _ => (⟨m, some d⟩, 2)
  | none, some d, none, _ => (⟨.clip, some d⟩, 1)
  | none, none, _, _ => (⟨.clip, none⟩, 0)

/-- The line below the head of a block scalar. -/
def Source.belowHead (s : Source) : Except Problem Source :=
  let s := s.skipWhile isBlank
  let s := if s.rest.head? == some '#' then s.skipWhile (!isBreak ·) else s
  match s.rest with
  | [] => .ok s
  | c :: _ => if isBreak c then .ok s.next else .error .trailingText

/-- The indentation and the blank lines in front of a line of content. Indentation ends at `limit`
where that is known. Gives the deepest column, the breaks and what follows. -/
def Source.indentation (limit : Option Nat) (deepest : Nat) (breaks : List Char) (s : Source) :
    Nat → Except Problem (Nat × List Char × Source)
  | 0 => .ok (deepest, breaks, s)
  | n + 1 =>
    let spaces := (s.rest.takeWhile (· == ' ')).length
    let s := s.skip ((limit.map fun l => min spaces (l - s.column)).getD spaces)
    let deepest := max deepest s.column
    match s.rest with
    | [] => .ok (deepest, breaks, s)
    | c :: _ =>
      if c == '\t' && limit.all (s.column < ·) then .error .tabIndent
      else if isBreak c then s.next.indentation limit deepest (breaks ++ [c]) n
      else .ok (deepest, breaks, s)

/-- What is read of a block scalar: its text, the break of the last line and the blank lines that
follow it. -/
structure BlockText where
  taken : List Char
  last : List Char
  blank : List Char
  /-- The last line begins with white space. -/
  spaced : Bool

/-- What stands between the last line and the next one. Folding makes a space of a single break
between two lines that do not begin with white space, and drops the first of several. -/
def BlockText.between (t : BlockText) (folded spaced : Bool) : List Char :=
  if folded && !t.spaced && !spaced && t.last == ['\n'] then
    (if t.blank.isEmpty then [' '] else t.blank)
  else t.last ++ t.blank

/-- The lines of a block scalar, which are indented to `indent`. -/
def blockLines (folded : Bool) (indent : Nat) (t : BlockText) (s : Source) :
    Nat → Except Problem (BlockText × Source)
  | 0 => .ok (t, s)
  | n + 1 =>
    if s.column ≠ indent || s.rest.isEmpty then .ok (t, s)
    else do
      let spaced := s.rest.head?.any isBlank
      let line := s.rest.takeWhile (!isBreak ·)
      let stop := s.skip line.length
      let below := stop.next
      let (_, blank, next) ← below.indentation (some indent) 0 [] (below.rest.length + 1)
      blockLines folded indent
        ⟨t.taken ++ t.between folded spaced ++ line, stop.rest.take 1, blank, spaced⟩ next n

/-- The text of a block scalar after its sign, inside something indented to `parent`. -/
def blockText (folded : Bool) (parent : Int) (s : Source) : Except Problem (List Char × Source) := do
  let (head, marks) := BlockHead.read s.rest
  if head.indent == some 0 then throw .zeroIndent
  let below ← (s.skip marks).belowHead
  let given := head.indent.map fun n => (max parent 0).toNat + n
  let (deepest, blank, first) ← below.indentation given 0 [] (below.rest.length + 1)
  let indent := given.getD (max deepest (max (parent + 1).toNat 1))
  let (t, next) ← blockLines folded indent ⟨[], [], blank, false⟩ first (first.rest.length + 1)
  let tail := match head.chomp with
    | .strip => []
    | .clip => t.last
    | .keep => t.last ++ t.blank
  return (t.taken ++ tail, next)

end Codemod.Yaml
