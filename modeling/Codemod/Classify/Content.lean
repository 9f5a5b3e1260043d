import Codemod.Text.Blank

namespace Codemod.Classify

def chars (s : Bytes) : List Char := (Text.lossy s).toList

def newline : UInt8 := 10

/-- The lines of a content without their newlines; a final newline opens no line. -/
def contentLines (content : Bytes) : List Bytes :=
  if content.isEmpty then []
  else (content.dropTail [newline]).splitOn newline

/-- The last lines that have more than one byte left to the end of the content, last one
first. -/
def lastLines (content : Bytes) (count : Nat) : List Bytes :=
  let start := (content.splitOn newline).foldl (fun (pos, found) line =>
    (pos + line.length + 1, if pos + 1 < content.length then line :: found else found)) (0, [])
  start.2.take count

end Codemod.Classify
