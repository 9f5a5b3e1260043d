import Codemod.Edit.Change
import Codemod.Release12.Family

namespace Codemod.Release12

open Edit Markup

/-- Insert text behind a start tag. A self-closing tag becomes a pair of tags around it. -/
def insertFirstChild (d : Document) (e : Element) (text : Bytes) : Change :=
  if e.selfClosing then
    let slash := e.startTag.stop - 2
    .replaceSpan d.content ⟨slash, e.startTag.stop⟩ (.concat [">", text, "</", e.name, ">"])
  else .insert e.startTag.stop text

/-- The content right before an offset is the given text. -/
def precededBy (d : Document) (offset : Nat) (text : Bytes) : Bool :=
  Bytes.endsWith (d.content.take offset) text

/-- Nothing but white space. -/
def isBlank (s : Bytes) : Bool := (Text.trimBytes s).isEmpty

/-- A value without quotes: `'dropdown'` reads like `dropdown`. -/
def unquote (value : Bytes) : Bytes := value.filter (!isQuote ·)

/-- The literal class of an element with one of the tags, as an attribute. -/
def classAttribute (e : Element) (tags : List String) : Bytes :=
  if e.named (tags.map bytes) then
    match e.attribute? ["class"] with
    | some a => if isBlank a.value then [] else .concat [" class=\"", a.value, "\""]
    | none => []
  else []

def firstChild? (e : Element) (select : Element → Bool) : Option Element := e.children.find? select

/-- The elements without repetitions; an element is known by where it starts. -/
def distinct (elements : List Element) : List Element :=
  elements.foldl (fun seen e =>
    if seen.any (·.startTag.start = e.startTag.start) then seen else seen ++ [e]) []

end Codemod.Release12
