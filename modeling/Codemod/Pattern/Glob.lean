import Codemod.Files.Path
import Codemod.Text.Utf8

namespace Codemod.Pattern

open Files

/-- A part of a file name pattern. -/
inductive GlobItem where
  | literal (b : UInt8)
  /-- Any character but a slash. -/
  | any
  | oneOf (negated : Bool) (ranges : List (Nat × Nat))
  deriving DecidableEq, Repr

/-- Items to be found in a row, after any run without a slash if there is a star in front. -/
structure GlobChunk where
  star : Bool
  items : List GlobItem
  deriving DecidableEq, Repr

namespace Glob

def backslash : UInt8 := 92
def openBracket : UInt8 := 91
def closeBracket : UInt8 := 93
def starByte : UInt8 := 42

/-- The bytes up to the next star outside of a class. -/
def untilStar (inClass : Bool) : Bytes → Bytes × Bytes
  | [] => ([], [])
  | c :: s =>
    if c = backslash then
      match s with
      | [] => ([c], [])
      | d :: s =>
        let (head, tail) := untilStar inClass s
        (c :: d :: head, tail)
    else if c = starByte && !inClass then ([], c :: s)
    else
      let (head, tail) := untilStar (if c = openBracket then true else if c = closeBracket then false else inClass) s
      (c :: head, tail)

/-- A character of a class, which a backslash may precede. Something must follow it. -/
def classChar? (s : Bytes) : Option (Nat × Bytes) := do
  let first ← s.head?
  guard (first ≠ ('-' : Char).toUInt8 ∧ first ≠ closeBracket)
  let s := if first = backslash then s.drop 1 else s
  let (c, extra) ← Text.firstChar? s
  let rest := s.drop (extra + 1)
  guard (!rest.isEmpty)
  return (c.toNat, rest)

/-- The ranges of a class, of which there must be one, and what follows it. -/
def classRanges? : Nat → List (Nat × Nat) → Bytes → Option (List (Nat × Nat) × Bytes)
  | 0, _, _ => none
  | n + 1, ranges, s =>
    if s.head? = some closeBracket ∧ ranges ≠ [] then some (ranges, s.drop 1)
    else do
      let (low, s) ← classChar? s
      let (high, s) ← if s.head? = some ('-' : Char).toUInt8 then classChar? (s.drop 1) else some (low, s)
      classRanges? n (ranges ++ [(low, high)]) s

/-- The items of a chunk of at most `n` bytes. -/
def items? : Nat → Bytes → Option (List GlobItem)
  | _, [] => some []
  | 0, _ => none
  | n + 1, c :: s =>
    if c = openBracket then do
      let negated := s.head? = some ('^' : Char).toUInt8
      let (ranges, rest) ← classRanges? (s.length + 1) [] (if negated then s.drop 1 else s)
      return .oneOf negated ranges :: (← items? n rest)
    else if c == '?' then (items? n s).map (.any :: ·)
    else if c = backslash then
      match s with
      | [] => none
      | d :: s => (items? n s).map (.literal d :: ·)
    else (items? n s).map (.literal c :: ·)

/-- The chunks of a pattern of at most `n` bytes. -/
def chunks? : Nat → Bytes → Option (List GlobChunk)
  | _, [] => some []
  | 0, _ => none
  | n + 1, pattern => do
    let star := pattern.head? = some starByte
    let (chunk, rest) := untilStar false (pattern.dropWhile (· = starByte))
    let items ← items? chunk.length chunk
    return ⟨star, items⟩ :: (← chunks? n rest)

/-- Read a pattern; a malformed one has no chunks. -/
def parse? (pattern : Bytes) : Option (List GlobChunk) := chunks? pattern.length pattern

/-- What follows the items at the front of a name. -/
def matchItems : List GlobItem → Bytes → Option Bytes
  | [], name => some name
  | _ :: _, [] => none
  | item :: items, b :: name =>
    match item with
    | .literal c => if b = c then matchItems items name else none
    | .any =>
      if b = slash then none
      else matchItems items (name.drop (((Text.firstChar? (b :: name)).map Prod.snd).getD 0))
    | .oneOf negated ranges =>
      let (c, extra) := ((Text.firstChar? (b :: name)).map fun (c, n) => (c.toNat, n)).getD (0xfffd, 0)
      if (ranges.any fun (low, high) => low ≤ c && c ≤ high) = negated then none
      else matchItems items (name.drop extra)

/-- What follows the items at the first place in a name where they can stand, before which there
is no slash. The last chunk must reach the end. -/
def findItems (items : List GlobItem) (last : Bool) : Bytes → Option Bytes
  | [] => none
  | b :: name =>
    if b = slash then none
    else match matchItems items name with
      | some rest => if last && !rest.isEmpty then findItems items last name else some rest
      | none => findItems items last name

def matchChunks : List GlobChunk → Bytes → Bool
  | [], name => name.isEmpty
  | chunk :: rest, name =>
    if chunk.star && chunk.items.isEmpty then !name.any (· = slash)
    else
      let last := rest.isEmpty
      let here := (matchItems chunk.items name).filter fun left => left.isEmpty || !last
      let found := match here with
        | some left => some left
        | none => if chunk.star then findItems chunk.items last name else none
      match found with
      | some left => matchChunks rest left
      | none => false

/-- The whole name fits the pattern. A malformed pattern fits nothing. -/
def fits (pattern name : Bytes) : Bool :=
  match parse? pattern with
  | some chunks => matchChunks chunks name
  | none => false

/-- The text before and after the first double star. -/
def cutDoubleStar? (pattern : Bytes) : Option (Bytes × Bytes) :=
  (Bytes.indexOf? "**" pattern).map fun i => (pattern.take i, pattern.drop (i + 2))

/-- The lists of path segments from each segment on. -/
def tails : List Bytes → List (List Bytes)
  | [] => []
  | s :: rest => (s :: rest) :: tails rest

/-- A double star stands for any number of directories. What follows it must fit the end of the
path, or one segment, below which everything fits too. -/
def fitsDoubleStar (before after path : Bytes) : Bool :=
  let before := before.dropTail "/"
  let after := after.dropHead "/"
  if !before.isEmpty && path != before && !path.startsWith (before ++ "/") then false
  else if after.isEmpty then true
  else
    let rest := (path.dropHead before).dropHead "/"
    (tails (rest.splitOn slash)).any fun segments =>
      fits after (Bytes.join "/" segments) ||
        (!Bytes.contains after "/" && fits after (segments.headD []))

/-- A relative path fits a pattern: as a whole, by its last name, or through a double star. -/
def matchPath (path pattern : Bytes) : Bool :=
  match cutDoubleStar? pattern with
  | some (before, after) => fitsDoubleStar before after path
  | none => fits pattern path || fits pattern (Path.base path)

def matchAny (path : Bytes) (patterns : List Bytes) : Bool := patterns.any (matchPath path)

end Glob

end Codemod.Pattern
