import Codemod.Patch.LineDiff
import Codemod.Text.Bytes

namespace Codemod.Patch

/-- The lines of a text, each with its newline; the last one may lack it. -/
def lines : Bytes → List Bytes
  | [] => []
  | c :: s =>
    if c == '\n' then [c] :: lines s
    else match lines s with
      | [] => [[c]]
      | line :: rest => (c :: line) :: rest

/-- A line of a comparison, without its newline. -/
structure Line where
  side : Side
  text : Bytes
  deriving DecidableEq, Repr

def chunkLines (chunk : Chunk Bytes) : List Line :=
  chunk.items.map fun line => ⟨chunk.side, line.dropTail "\n"⟩

/-- A stretch of a comparison: the lines it takes from both texts and where these begin,
counted from one. -/
structure Hunk where
  beforeStart : Nat
  beforeCount : Nat
  afterStart : Nat
  afterCount : Nat
  lines : List Line
  deriving DecidableEq, Repr

def isBefore (l : Line) : Bool := l.side != .added

def isAfter (l : Line) : Bool := l.side != .removed

/-- Unchanged lines shown before and after a change. -/
def contextLines : Nat := 3

/-- The ranges of changed lines, from line `i` on. -/
def changedRanges (i : Nat) : List Line → List (Nat × Nat)
  | [] => []
  | l :: rest =>
    let later := changedRanges (i + 1) rest
    if l.side = .both then later
    else match later with
      | (start, stop) :: more => if start = i + 1 then (i, stop) :: more else (i, i + 1) :: later
      | [] => [(i, i + 1)]

/-- Join ranges whose contexts touch. -/
def joinRanges : List (Nat × Nat) → List (Nat × Nat)
  | [] => []
  | (start, stop) :: rest =>
    match joinRanges rest with
    | (start', stop') :: more =>
      if start' - stop ≤ 2 * contextLines then (start, stop') :: more
      else (start, stop) :: (start', stop') :: more
    | [] => [(start, stop)]

/-- The hunk around a range of lines. A side without lines starts at the line before. -/
def hunkAt (all : List Line) (range : Nat × Nat) : Hunk :=
  let start := range.1 - contextLines
  let shown := (all.take (range.2 + contextLines)).drop start
  let side (p : Line → Bool) : Nat × Nat :=
    let before := (all.take start).countP p
    let count := shown.countP p
    (if count = 0 then before else before + 1, count)
  let before := side isBefore
  let after := side isAfter
  ⟨before.1, before.2, after.1, after.2, shown⟩

/-- A unified diff between two contents of a file. -/
structure Diff where
  path : Bytes
  before : Bytes
  after : Bytes
  hunks : List Hunk
  deriving DecidableEq, Repr

/-- The diff that a comparison of the lines makes, or nothing when the contents are equal. -/
def diffOf (chunks : List (Chunk Bytes)) (path before after : Bytes) : Option Diff :=
  if before = after then none
  else
    let all := chunks.flatMap chunkLines
    match (joinRanges (changedRanges 0 all)).map (hunkAt all) with
    | [] => none
    | hunks => some ⟨path, before, after, hunks⟩

/-- What changed, or nothing when the contents are equal. -/
def diff? (path before after : Bytes) : Option Diff :=
  diffOf (compare (lines before) (lines after)) path before after

namespace Diff

def allLines (d : Diff) : List Line := d.hunks.flatMap Hunk.lines

def additions (d : Diff) : Nat := d.allLines.countP (·.side = .added)

def deletions (d : Diff) : Nat := d.allLines.countP (·.side = .removed)

/-- The path as it stands in headers: relative. -/
def shownPath (d : Diff) : Bytes := d.path.dropHead "/"

def gitHeader (d : Diff) : Bytes := .concat ["diff --git a/", d.shownPath, " b/", d.shownPath]

end Diff

def Line.render (l : Line) : Bytes :=
  (match l.side with
    | .both => bytes " "
    | .added => bytes "+"
    | .removed => bytes "-") ++ l.text

def Hunk.header (h : Hunk) : Bytes := .concat
  ["@@ -", .ofNat h.beforeStart, ",", .ofNat h.beforeCount, " +", .ofNat h.afterStart, ",",
    .ofNat h.afterCount, " @@"]

/-- The diff in unified format, line by line. Without hunks there is nothing to show. -/
def Diff.renderLines (d : Diff) : List Bytes :=
  if d.hunks.isEmpty then []
  else Bytes.concat ["--- a/", d.shownPath] :: Bytes.concat ["+++ b/", d.shownPath] ::
    d.hunks.flatMap fun h => h.header :: h.lines.map Line.render

def Diff.render (d : Diff) : Bytes := d.renderLines.flatMap (· ++ "\n")

/-- The diff with its header for version control. -/
def Diff.renderFull (d : Diff) : Bytes :=
  if d.hunks.isEmpty then [] else .concat [d.gitHeader, "\n", d.render]

end Codemod.Patch
