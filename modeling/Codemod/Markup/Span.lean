import Codemod.Text.Bytes

namespace Codemod.Markup

/-- A half-open range of byte offsets into the content it was computed from. -/
structure Span where
  start : Nat
  stop : Nat
  deriving DecidableEq, Repr

/-- The number of bytes covered; negative when the ends are crossed. -/
def Span.len (s : Span) : Int := (s.stop : Int) - s.start

/-- The inner range lies within the outer one. -/
def Span.contains (outer inner : Span) : Bool := outer.start ≤ inner.start && inner.stop ≤ outer.stop

def Span.text (s : Span) (content : Bytes) : Bytes := content.slice s.start s.stop

/-- White space between the parts of a tag. -/
def isSpace (c : UInt8) : Bool := c == ' ' || c == '\n' || c == '\r' || c == '\t' || c == 12

/-- A place in a text: the offset of the next byte and the bytes from there on. -/
structure Cursor where
  pos : Nat
  rest : Bytes
  deriving DecidableEq, Repr

/-- Move over the longest run of bytes that satisfy `p`. -/
def Cursor.skip (p : UInt8 → Bool) (c : Cursor) : Cursor :=
  ⟨c.pos + (c.rest.takeWhile p).length, c.rest.dropWhile p⟩

/-- Move over a literal text, if it is there. -/
def Cursor.literal? (text : Bytes) (c : Cursor) : Option Cursor :=
  if c.rest.startsWith text then some ⟨c.pos + text.length, c.rest.drop text.length⟩ else none

theorem dropWhile_length_le (p : UInt8 → Bool) (s : Bytes) :
    (s.dropWhile p).length ≤ s.length := (List.dropWhile_suffix p).length_le

theorem Cursor.skip_length_le (p : UInt8 → Bool) (c : Cursor) :
    (c.skip p).rest.length ≤ c.rest.length := dropWhile_length_le p c.rest

end Codemod.Markup
