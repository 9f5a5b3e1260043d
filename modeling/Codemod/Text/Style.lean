import Codemod.Text.Terminal

namespace Codemod.Text

def expandTabs (s : Bytes) : Bytes := s.flatMap fun (c : UInt8) => if c == '\t' then bytes "    " else [c]

/-- Line ends without carriage returns. -/
def unixBreaks : Bytes → Bytes
  | [] => []
  | a :: s => if a == '\r' && s.head? == some 10 then unixBreaks s else a :: unixBreaks s

/-- A text with each line changed and then filled up to the width of the widest. -/
def evenLines (change : Bytes → Bytes) (s : Bytes) : Bytes :=
  let lines := ((unixBreaks (expandTabs s)).splitOn 10).map change
  let widest := (lines.map width).foldl max 0
  .join "\n" (lines.map fun line => line ++ List.replicate (widest - width line) 32)

/-- How a piece of text looks: the codes of a terminal, of which there may be none. -/
structure Style where
  codes : List String
  deriving DecidableEq, Repr

namespace Style

def plain : Style := ⟨[]⟩

def bold : Style := ⟨["1"]⟩

def color (code : String) : Style := ⟨[code]⟩

def boldColor (code : String) : Style := ⟨["1", code]⟩

def wrapLine (codes : List String) (line : Bytes) : Bytes :=
  .concat ["\x1b[", String.intercalate ";" codes, "m", line, "\x1b[0m"]

/-- A text in a style. The lines of a styled text are made equally wide. -/
def render (style : Style) (s : Bytes) : Bytes :=
  if style.codes.isEmpty then expandTabs s else evenLines (wrapLine style.codes) s

end Style

end Codemod.Text
