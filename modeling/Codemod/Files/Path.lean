import Codemod.Text.Bytes

namespace Codemod.Files

abbrev slash : UInt8 := 47

namespace Path

def isAbsolute (path : Bytes) : Bool := path.startsWith "/"

/-- The non-empty names between slashes, without those that stay in place. -/
def parts (path : Bytes) : List Bytes :=
  (path.splitOn slash).filter fun p => !p.isEmpty && p != "."

/-- Take a step along a path; `taken` holds the names so far, last one first. A step up undoes
the last name, stays at the root, and is kept where a relative path leaves its start. -/
def step (rooted : Bool) (taken : List Bytes) (name : Bytes) : List Bytes :=
  if name = ".." then
    match taken with
    | [] => if rooted then [] else [".."]
    | last :: rest => if last = ".." then ".." :: taken else rest
  else name :: taken

/-- The names of a path without detours. -/
def cleanParts (path : Bytes) : List Bytes :=
  ((parts path).foldl (step (isAbsolute path)) []).reverse

def ofParts (rooted : Bool) (names : List Bytes) : Bytes :=
  if rooted then "/" ++ Bytes.join "/" names
  else if names.isEmpty then "." else Bytes.join "/" names

/-- The shortest path that means the same. -/
def clean (path : Bytes) : Bytes := ofParts (isAbsolute path) (cleanParts path)

/-- Paths one below the other; empty ones do not count. -/
def join (paths : List Bytes) : Bytes :=
  let kept := paths.filter (!·.isEmpty)
  if kept.isEmpty then [] else clean (Bytes.join "/" kept)

/-- The last name of a path. -/
def base (path : Bytes) : Bytes :=
  if path.isEmpty then "."
  else
    let trimmed := path.reverse.dropWhile (· = slash)
    if trimmed.isEmpty then "/" else (trimmed.takeWhile (· ≠ slash)).reverse

/-- The path without its last name. -/
def dir (path : Bytes) : Bytes := clean (path.reverse.dropWhile (· ≠ slash)).reverse

/-- The path of a neighbour, whose name has something more at its end. -/
def beside (path suffix : Bytes) : Bytes :=
  .concat [if dir path = "/" then [] else dir path, "/", base path, suffix]

/-- The end of the last name from its last dot on. -/
def extension (path : Bytes) : Bytes :=
  let name := (path.reverse.takeWhile (· ≠ slash)).reverse
  let tail := name.reverse.takeWhile (· != ('.' : Char).toUInt8)
  if tail.length = name.length then [] else name.drop (name.length - tail.length - 1)

/-- What two lists have beyond their common beginning. -/
def dropCommon : List Bytes → List Bytes → List Bytes × List Bytes
  | a :: s, b :: t => if a = b then dropCommon s t else (a :: s, b :: t)
  | s, t => (s, t)

/-- The way from a directory to a path, if one can be told without looking. -/
def relative? (start target : Bytes) : Option Bytes :=
  if clean start = clean target then some "."
  else if isAbsolute start ≠ isAbsolute target then none
  else
    let (up, down) := dropCommon (cleanParts start) (cleanParts target)
    if up.head? = some ".." then none
    else some (Bytes.join "/" (up.map (fun _ => bytes "..") ++ down))

end Path

end Codemod.Files
