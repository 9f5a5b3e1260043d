import Codemod.Release12.Template
import Codemod.Text.Lower

namespace Codemod.Release12

open Edit Markup

/-- The alignment that a removed type of tabs stands for. Other types have none. -/
def alignment? (type : Bytes) : Option Bytes :=
  if type = "fixed" then some "justify" else if type = "contentfit" then some "start" else none

/-- Add the alignment that follows from the type, unless the tabs have one. -/
def alignTabs (d : Document) : List Change :=
  (d.find (Element.named [tabs.component])).filterMap fun e => do
    let type ← e.attribute? (attributeNames "type")
    guard (!e.hasAttribute (attributeNames "tabAlignment"))
    let alignment ← alignment? (Text.lower (unquote type.value))
    return .insert e.attributePos (.concat [" tabAlignment=\"", alignment, "\""])

/-- A template for the header of a tab. -/
def isTabTemplate (e : Element) : Bool := e.named ["ng-template"] && e.hasAttribute ["igxTab"]

/-- Replace the tags of a template by those of the header; without an end tag the whole element
is replaced. -/
def wrapTemplate (f : Family) (d : Document) (e : Element) : List Change :=
  let start := Bytes.concat ["<", f.headerTag, ">"]
  let stop := Bytes.concat ["</", f.headerTag, ">"]
  match e.endTag with
  | none => [.replaceSpan d.content e.span (.concat [start, d.text e.contentSpan, stop])]
  | some close => [.replaceSpan d.content e.startTag start, .replaceSpan d.content close stop]

/-- Turn the tab templates inside the items of a family into headers. -/
def wrapTemplates (f : Family) (d : Document) : List Change :=
  (distinct ((d.find f.isItem).flatMap (·.descendants isTabTemplate))).flatMap (wrapTemplate f d)

/-- An attribute as it was written. -/
def formatAttribute (a : Attribute) : Bytes :=
  let quote : Bytes := if a.quote = some ('\'' : Char).toUInt8 then "'" else "\""
  .concat [a.name, "=", quote, a.value, quote]

/-- The header that shows the icon, the label and the link of an item. -/
def header? (f : Family) (e : Element) : Option Bytes :=
  let icon := e.attribute? (attributeNames "icon")
  let label := e.attribute? (attributeNames "label")
  let link := e.attribute? (attributeNames "routerLink")
  if icon.isNone && label.isNone && link.isNone then none
  else some (.concat
    ["\n<", f.headerTag,
      link.elim [] fun a => " " ++ formatAttribute a,
      classAttribute e f.headerClassTags, ">",
      icon.elim [] fun a =>
        .concat ["\n<igx-icon ", f.iconDirective, ">", a.interpolated, "</igx-icon>"],
      label.elim [] fun a =>
        .concat ["\n<span ", f.labelDirective, ">", a.interpolated, "</span>\n"],
      "</", f.headerTag, ">"])

def Family.isHeader (f : Family) (e : Element) : Bool := e.named [f.headerTag]

/-- Give every item without a header one. -/
def addHeaders (f : Family) (d : Document) : List Change :=
  (d.find f.isItem).filterMap fun e =>
    if (firstChild? e f.isHeader).isSome then none
    else (header? f e).map (insertFirstChild d e)

/-- Wrap what follows the header of an item into a panel, unless it mentions one. -/
def addPanels (f : Family) (d : Document) : List Change :=
  (d.find f.isItem).flatMap fun e =>
    match firstChild? e f.isHeader, e.endTag with
    | some header, some close =>
      let body : Span := ⟨header.span.stop, close.start⟩
      let content := d.text body
      if content.contains f.panelTag || isBlank content then []
      else
        [.insert body.start (.concat ["\n<", f.panelTag, classAttribute e f.panelClassTags, ">"]),
          .insert body.stop (.concat ["</", f.panelTag, ">\n"])]
    | _, _ => []

/-- The comment that asks for a review of a restructured component. -/
def reviewComment : Bytes := .concat
  ["<!--NOTE: This component has been updated by Infragistics migration: v12.0.0",
    "\nPlease check your template whether all bindings/event handlers are correct.-->\n"]

/-- Put the comment in front of every outermost component of a file that the family's stages
changed. -/
def addReviewComments (f : Family) (d : Document) (touched : Bool) : List Change :=
  if touched then
    ((d.outermost (Element.named [f.component])).filter fun e =>
      !precededBy d e.startTag.start reviewComment).map fun e =>
        .insert e.startTag.start reviewComment
  else []

end Codemod.Release12
