import Codemod.Edit.Change
import Codemod.Migration.Registry
import Codemod.Release12.Family
import Codemod.Release12.RowType
import Codemod.Release12.Tabs

namespace Codemod.Release12

open Edit Migration

section Editors

open Markup

/-- A label as a child of a picker, shown only while `visible` holds if that is given. -/
def projectedLabel (visible : Option Attribute) (text : Bytes) : Bytes := .concat
  ["\n<label igxLabel", visible.elim [] fun a => .concat [" *ngIf=\"", a.value, "\""], ">", text,
    "</label>"]

/-- Turn the label inputs of a picker into children; without one, project the default label. -/
def projectLabels (editor : Editor) (d : Document) (e : Element) : List Change :=
  let visible := e.attribute? (attributeNames "labelVisibility")
  match e.attributes (attributeNames "label") with
  | [] => [insertFirstChild d e (projectedLabel visible editor.defaultLabel)]
  | labels =>
    labels.map (fun a => .deleteSpan d.content (a.removalSpan d.content)) ++
      [insertFirstChild d e (labels.flatMap fun a => projectedLabel visible a.interpolated)]

/-- The edits of one picker. One with a projected label has been migrated and only loses its
dropdown mode. -/
def editorInputs (editor : Editor) (d : Document) (e : Element) : List Change :=
  let modes := e.attributes (attributeNames "mode")
  let dropped := (modes.filter fun a => unquote a.value = "dropdown").map fun a =>
    Change.deleteSpan d.content (a.removalSpan d.content)
  if (firstChild? e (·.hasAttribute ["igxLabel"])).isSome then dropped
  else
    let dialog : List Change := if modes.isEmpty then [.insert e.attributePos " mode=\"dialog\""] else []
    dropped ++ dialog ++ projectLabels editor d e

def Editor.isTemplate (editor : Editor) (e : Element) : Bool :=
  e.named ["ng-template"] && e.hasAttribute [editor.templateDirective]

/-- Migrate the inputs of every picker, then warn in front of its templates. The warnings come
last, so that a label inserted at the same offset stands before them. -/
def migrateEditors (editor : Editor) (d : Document) : List Change :=
  let pickers := d.find (Element.named [editor.component])
  let templates := distinct (pickers.flatMap (·.descendants editor.isTemplate))
  pickers.flatMap (editorInputs editor d) ++
    (templates.filter fun e => !precededBy d e.startTag.start editor.templateWarning).map fun e =>
      .insert e.startTag.start editor.templateWarning

end Editors

def isIdentByte (c : UInt8) : Bool := c == '-' || c == '_' || Bytes.isLetter c || Bytes.isDigit c

/-- A byte that makes what follows another name: part of an identifier, or the mark of a class,
an id, a placeholder or a variable. -/
def bindsLeft (c : UInt8) : Bool := isIdentByte c || Bytes.contains ".#%$@" [c]

/-- The offsets at which a name stands as a whole type selector. `previous` is the byte in front
and `pos` the offset of the text; `skip` bytes belong to an occurrence before. -/
def selectorOffsets (name : Bytes) (previous : Option UInt8) (pos skip : Nat) : Bytes → List Nat
  | [] => []
  | c :: s =>
    if skip ≠ 0 then selectorOffsets name (some c) (pos + 1) (skip - 1) s
    else if Bytes.startsWith (c :: s) name then
      let later := selectorOffsets name (some c) (pos + 1) (name.length - 1) s
      if previous.any bindsLeft || ((c :: s).drop name.length).head?.any isIdentByte then later
      else pos :: later
    else selectorOffsets name (some c) (pos + 1) 0 s

/-- Rename the old item selectors of a family. -/
def renameSelectors (f : Family) (content : Bytes) : List Change :=
  f.selectors.flatMap fun (old, new) =>
    (selectorOffsets old none 0 0 content).map fun pos => .replace pos old new

def alignmentStage : Stage where
  rule := .template "tabs-type-alignment" "Tabs type to alignment"
    "Adds tabAlignment to igx-tabs that set type fixed or contentfit" fun d _ => alignTabs d
  group := tabs.component

def familyStages (f : Family) : List Stage :=
  let stage (step name description : String) (edits : Markup.Document → Bool → List Edit.Change) : Stage :=
    ⟨.template (f.component ++ step) name description edits, f.component⟩
  [stage "-wrap-template" "Wrap tab templates"
      ("Replaces ng-template igxTab inside " ++ f.component ++ " items with <" ++ f.headerTag ++ ">")
      fun d _ => wrapTemplates f d,
    stage "-header" "Tab headers"
      ("Projects label, icon and routerLink of " ++ f.component ++ " items as <" ++ f.headerTag ++ ">")
      fun d _ => addHeaders f d,
    stage "-content" "Tab panels"
      ("Wraps the body of " ++ f.component ++ " items in <" ++ f.panelTag ++ ">")
      fun d _ => addPanels f d,
    stage "-review-comment" "Review comment"
      ("Flags migrated " ++ f.component ++ " instances for manual review")
      (addReviewComments f),
    ⟨.pure (f.component ++ "-style-selectors") "Tab selectors"
      ("Renames " ++ f.component ++ " item selectors in style sheets") .style
      fun c => renameSelectors f c.content, ""⟩]

def rowTypeStage : Stage where
  rule := .pure "row-type-imports" "Row type"
    "Replaces grid row component imports and typings with RowType" .source
    fun c => replaceRowTypes c.content
  group := ""

def editorStage (e : Editor) : Stage where
  rule := .template (e.component ++ "-inputs") "Editor inputs"
    ("Migrates mode, label and " ++ e.templateDirective ++ " of " ++ e.component)
    fun d _ => migrateEditors e d
  group := ""

/-- The stages in the order in which they run. -/
def stages : List Stage :=
  [alignmentStage] ++ families.flatMap familyStages ++ [rowTypeStage] ++ editors.map editorStage

def draft : Draft where
  version := "12.0.0"
  description := "Tabs and bottom navigation rework, RowType, date and time picker inputs"
  stages := stages

def migration : Migration := ⟨⟨12, 0, 0, []⟩, draft.description, draft.stages⟩

/-- The built-in migrations. -/
def registry : Registry := ⟨[migration]⟩

end Codemod.Release12
