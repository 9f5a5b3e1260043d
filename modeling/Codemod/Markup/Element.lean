import Codemod.Markup.Attribute

namespace Codemod.Markup

structure StartTag where
  /-- As written, in its own case. -/
  name : Bytes
  attrs : List Attribute
  span : Span
  selfClosing : Bool
  deriving DecidableEq, Repr

/-- Read a start tag again from its text, for the case of its name and the places of its
attributes. -/
def StartTag.scan (raw : Bytes) (start : Nat) (selfClosing : Bool) : StartTag :=
  let afterName := Cursor.skip (!isNameEnd ·) ⟨start + 1, raw.drop 1⟩
  ⟨raw.slice 1 (afterName.pos - start), Attribute.scanAll afterName, ⟨start, start + raw.length⟩,
    selfClosing⟩

/-- The name in an end tag. -/
def endTagName (raw : Bytes) : Bytes := (raw.drop 2).takeWhile (!isNameEnd ·)

/-- An element with its child elements. Text and comments are not part of the tree. -/
inductive Element where
  | node (tag : StartTag) (children : List Element) (endTag : Option Span) (stop : Nat)

namespace Element

def tag : Element → StartTag
  | node tag _ _ _ => tag

def children : Element → List Element
  | node _ children _ _ => children

/-- Absent for void and self-closing elements and where the end tag was omitted. -/
def endTag : Element → Option Span
  | node _ _ endTag _ => endTag

def stop : Element → Nat
  | node _ _ _ stop => stop

def name (e : Element) : Bytes := e.tag.name

def attrs (e : Element) : List Attribute := e.tag.attrs

def startTag (e : Element) : Span := e.tag.span

def selfClosing (e : Element) : Bool := e.tag.selfClosing

end Element

/-- Elements that have neither content nor an end tag. -/
def voidNames : List Bytes :=
  ["area", "base", "br", "col", "embed", "hr", "img", "input", "link", "meta", "param", "source",
    "track", "wbr"]

def isVoid (name : Bytes) : Bool := voidNames.contains name

/-- Elements whose end tag may be omitted, with the start tags that close them. -/
def optionalEnds : List (Bytes × List Bytes) :=
  [("li", ["li"]), ("dt", ["dt", "dd"]), ("dd", ["dt", "dd"]), ("p", ["p"]),
    ("rt", ["rt", "rp"]), ("rp", ["rt", "rp"]), ("option", ["option", "optgroup"]),
    ("optgroup", ["optgroup"]), ("colgroup", []), ("caption", []), ("thead", ["tbody", "tfoot"]),
    ("tbody", ["tbody", "tfoot"]), ("tfoot", []), ("tr", ["tr"]), ("td", ["td", "th", "tr"]),
    ("th", ["td", "th", "tr"])]

def hasOptionalEnd (name : Bytes) : Bool := (optionalEnds.lookup name).isSome

/-- A start tag named `next` ends an open element named `name`. -/
def closesImplicitly (name next : Bytes) : Bool :=
  ((optionalEnds.lookup name).getD []).contains next

namespace Element

/-- The whole element with its end tag. -/
def span (e : Element) : Span := ⟨e.startTag.start, e.stop⟩

/-- What lies between the start tag and the end tag. -/
def contentSpan (e : Element) : Span :=
  match e.endTag with
  | some close => ⟨e.startTag.stop, close.start⟩
  | none =>
    if e.selfClosing || isVoid e.name then ⟨e.startTag.stop, e.startTag.stop⟩
    else ⟨e.startTag.stop, e.stop⟩

def hasAttribute (e : Element) (names : List Bytes) : Bool :=
  e.attrs.any fun a => names.contains a.name

/-- Every attribute spelled as one of the names, in source order. -/
def attributes (e : Element) (names : List Bytes) : List Attribute :=
  e.attrs.filter fun a => names.contains a.name

def attribute? (e : Element) (names : List Bytes) : Option Attribute :=
  e.attrs.find? fun a => names.contains a.name

/-- Where a further attribute is inserted: after the last one, or after the name. -/
def attributePos (e : Element) : Nat :=
  match e.attrs.getLast? with
  | some a => a.span.stop
  | none => e.startTag.start + 1 + e.name.length

end Element

end Codemod.Markup
