import Codemod.Markup.Query
import Codemod.Text.Blank

namespace Codemod.Release12

/-- A component with tab-like items, which gain header and panel children. -/
structure Family where
  component : String
  /-- The item tags. -/
  tags : List String
  headerTag : String
  panelTag : String
  iconDirective : String
  labelDirective : String
  /-- Item tags whose class moves to the header. -/
  headerClassTags : List String
  /-- Item tags whose class moves to the panel. -/
  panelClassTags : List String
  /-- Old style selectors with their replacements. -/
  selectors : List (String × String)

def bottomNav : Family where
  component := "igx-bottom-nav"
  tags := ["igx-bottom-nav-item", "igx-tab-panel", "igx-tab"]
  headerTag := "igx-bottom-nav-header"
  panelTag := "igx-bottom-nav-content"
  iconDirective := "igxBottomNavHeaderIcon"
  labelDirective := "igxBottomNavHeaderLabel"
  headerClassTags := ["igx-tab"]
  panelClassTags := ["igx-tab-panel"]
  selectors := [("igx-tab-panel", "igx-bottom-nav-content"), ("igx-tab", "igx-bottom-nav-header")]

def tabs : Family where
  component := "igx-tabs"
  tags := ["igx-tabs-group", "igx-tab-item"]
  headerTag := "igx-tab-header"
  panelTag := "igx-tab-content"
  iconDirective := "igxTabHeaderIcon"
  labelDirective := "igxTabHeaderLabel"
  headerClassTags := ["igx-tab-item"]
  panelClassTags := ["igx-tabs-group"]
  selectors := [("igx-tab-item", "igx-tab-header"), ("igx-tabs-group", "igx-tab-content")]

def families : List Family := [bottomNav, tabs]

def Family.isItem (f : Family) (e : Markup.Element) : Bool := e.named (f.tags.map bytes)

/-- A date or time picker. -/
structure Editor where
  component : String
  /-- The directive of the removed template. -/
  templateDirective : String
  defaultLabel : String
  /-- The page that tells what replaces the template. -/
  page : String

def editors : List Editor :=
  [⟨"igx-date-picker", "igxDatePickerTemplate", "Date", "date-picker"⟩,
    ⟨"igx-time-picker", "igxTimePickerTemplate", "Time", "time-picker"⟩]

/-- The comment in front of a template that no longer has an effect. -/
def Editor.templateWarning (e : Editor) : Bytes := .concat
  ["\n<!-- ", e.templateDirective, " has been removed.\n",
    "Label, prefix, suffix and hint can now be projected directly.\n",
    "See https://www.infragistics.com/products/ignite-ui-angular/angular/components/", e.page,
    " -->\n"]

end Codemod.Release12
