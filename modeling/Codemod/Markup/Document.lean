import Codemod.Markup.Element
import Codemod.Text.Bytes

namespace Codemod.Markup

/-- A line and a column, both counted from one. Columns count bytes. -/
structure Position where
  line : Nat
  column : Nat
  deriving DecidableEq, Repr

/-- The offsets at which lines begin, when the first byte of `content` has offset `start`. -/
def newlineStops (start : Nat) : Bytes → List Nat
  | [] => []
  | c :: s => if c == '\n' then (start + 1) :: newlineStops (start + 1) s else newlineStops (start + 1) s

def lineStarts (content : Bytes) : List Nat := 0 :: newlineStops 0 content

/-- The nearest offset of the content, its end included. -/
def clamp (content : Bytes) (offset : Int) : Nat := min offset.toNat content.length

/-- The beginnings of the lines up to the one that holds an offset. -/
def startsUpTo (content : Bytes) (offset : Nat) : List Nat := (lineStarts content).takeWhile (· ≤ offset)

/-- The offset of the first byte of the line that holds an offset. -/
def lineStart (content : Bytes) (offset : Int) : Nat :=
  ((startsUpTo content (clamp content offset)).getLast?).getD 0

def position (content : Bytes) (offset : Int) : Position :=
  ⟨(startsUpTo content (clamp content offset)).length, clamp content offset - lineStart content offset + 1⟩

structure Document where
  path : Bytes
  content : Bytes
  roots : List Element

/-- Why a template has no tree. -/
inductive Malformed where
  | unfinishedTag
  | unopened (name : Bytes)
  | crossed (name inner : Bytes) (innerStart : Nat)
  | unclosed (name : Bytes)
  deriving DecidableEq, Repr

def Malformed.message : Malformed → Bytes
  | unfinishedTag => "unexpected end of input inside tag"
  | unopened name => .concat ["unexpected closing tag </", name, ">"]
  | crossed name inner start => .concat
    ["unexpected closing tag </", name, ">: <", inner, "> at offset ", .ofNat start, " is not closed"]
  | unclosed name => .concat ["unclosed element <", name, ">"]

structure ParseError where
  path : Bytes
  offset : Nat
  position : Position
  reason : Malformed
  deriving DecidableEq, Repr

def ParseError.message (e : ParseError) : Bytes := .concat
  [e.path, if e.path.isEmpty then [] else ":", .ofNat e.position.line, ":",
    .ofNat e.position.column, ": ", e.reason.message]

/-- An element whose end has not been read, with its children so far, last one first. -/
structure Pending where
  tag : StartTag
  children : List Element

/-- The tree read so far: finished top-level elements, last one first, and the open elements,
innermost first. -/
structure Forest where
  roots : List Element
  pending : List Pending

namespace Forest

def empty : Forest := ⟨[], []⟩

def addChild (f : Forest) (e : Element) : Forest :=
  match f.pending with
  | [] => ⟨e :: f.roots, []⟩
  | top :: rest => ⟨f.roots, { top with children := e :: top.children } :: rest⟩

/-- End the innermost open element. -/
def close (f : Forest) (endTag : Option Span) (stop : Nat) : Forest :=
  match f.pending with
  | [] => f
  | top :: rest => addChild ⟨f.roots, rest⟩ (.node top.tag top.children.reverse endTag stop)

def start (f : Forest) (tag : StartTag) : Forest :=
  let f := match f.pending with
    | top :: _ => if closesImplicitly top.tag.name tag.name then f.close none tag.span.start else f
    | [] => f
  if tag.selfClosing || isVoid tag.name then f.addChild (.node tag [] none tag.span.stop)
  else ⟨f.roots, ⟨tag, []⟩ :: f.pending⟩

/-- End the innermost element of a name. Open elements inside it need an optional end tag; the
outermost of those without one is at fault. -/
def finish (f : Forest) (name : Bytes) (endTag : Span) : Except Malformed Forest :=
  if isVoid name then .ok f
  else
    let inner := f.pending.takeWhile (·.tag.name != name)
    if inner.length = f.pending.length then .error (.unopened name)
    else match inner.reverse.find? (!hasOptionalEnd ·.tag.name) with
      | some left => .error (.crossed name left.tag.name left.tag.span.start)
      | none => .ok ((inner.foldl (fun f _ => f.close none endTag.start) f).close (some endTag) endTag.stop)

end Forest

/-- Add one token to the tree, or the reason and offset at which this fails. -/
def Forest.add (f : Forest) (t : Token) : Except (Malformed × Nat) Forest :=
  match t.kind with
  | .text | .comment => .ok f
  | .startTag _ _ selfClosing => .ok (f.start (StartTag.scan t.raw t.start selfClosing))
  | .endTag => (f.finish (endTagName t.raw) ⟨t.start, t.stop⟩).mapError (·, t.start)
  | .unfinished => .error (.unfinishedTag, t.start)

/-- Close what is still open at the end of the content. -/
def Forest.complete (f : Forest) (stop : Nat) : Except (Malformed × Nat) (List Element) :=
  match f.pending.reverse.find? (!hasOptionalEnd ·.tag.name) with
  | some left => .error (.unclosed left.tag.name, left.tag.span.start)
  | none => .ok (f.pending.foldl (fun f _ => f.close none stop) f).roots.reverse

/-- Read a template. Every element needs its end tag, except void and self-closing ones and
those whose end tag is optional. -/
def Document.parse (path content : Bytes) : Except ParseError Document :=
  match (tokens content).foldlM Forest.add Forest.empty >>= (Forest.complete · content.length) with
  | .ok roots => .ok ⟨path, content, roots⟩
  | .error (reason, offset) => .error ⟨path, offset, position content offset, reason⟩

def Document.text (d : Document) (s : Span) : Bytes := s.text d.content

end Codemod.Markup
