import Codemod.Proofs.Release12.Header
import Mathlib.Data.List.Perm.Basic

namespace Codemod.Release12

open Edit Markup

def isDropdown (a : Attribute) : Bool := (attributeNames "mode").contains a.name && unquote a.value = "dropdown"

def isLabel (a : Attribute) : Bool := (attributeNames "label").contains a.name

def hasProjectedLabel (e : Element) : Bool := (firstChild? e (·.hasAttribute ["igxLabel"])).isSome

/-- The attributes that a picker loses. -/
def pickerDrops (e : Element) : List Attribute :=
  e.attrs.filter fun a => isDropdown a || (!hasProjectedLabel e && isLabel a)

/-- The mode that a picker gets which sets none. -/
def pickerMode? (e : Element) : Option Bytes :=
  if (e.attributes (attributeNames "mode")).isEmpty then some (addedAttribute "mode" "dialog") else none

/-- The labels that a picker gets. -/
def labelText (editor : Editor) (e : Element) : Bytes :=
  let visible := e.attribute? (attributeNames "labelVisibility")
  match e.attributes (attributeNames "label") with
  | [] => projectedLabel visible editor.defaultLabel
  | labels => labels.flatMap fun a => projectedLabel visible a.interpolated

/-- The edits of a picker from left to right. -/
def pickerEdits (editor : Editor) (d : Document) (e : Element) : List Change :=
  (pickerDrops e).map (fun a => .deleteSpan d.content (a.removalSpan d.content)) ++
    if hasProjectedLabel e then []
    else (pickerMode? e).toList.map (.insert e.attributePos) ++ [insertFirstChild d e (labelText editor e)]

theorem filter_or_perm {p q : Attribute → Bool} (hpq : ∀ a, p a = true → q a = false) (attrs : List Attribute) :
    (attrs.filter p ++ attrs.filter q).Perm (attrs.filter fun a => p a || q a) := by
  refine List.Perm.trans (List.Perm.of_eq ?_) (List.filter_append_perm p _)
  rw [List.filter_filter, List.filter_filter]
  congr 1
  · refine List.filter_congr fun a _ => ?_
    cases p a <;> simp
  · refine List.filter_congr fun a _ => ?_
    cases hp : p a with
    | true => simp [hpq a hp]
    | false => simp

theorem isLabel_of_isDropdown {a : Attribute} (h : isDropdown a = true) : isLabel a = false := by
  have hname : a.name ∈ attributeNames (bytes "mode") := List.elem_iff.mp (Bool.and_eq_true_iff.mp h).1
  have hall : ∀ n ∈ attributeNames (bytes "mode"), (attributeNames (bytes "label")).contains n = false := by decide
  exact hall a.name hname

theorem projectLabels_eq (editor : Editor) (d : Document) (e : Element) : projectLabels editor d e =
    (e.attrs.filter isLabel).map (fun a => .deleteSpan d.content (a.removalSpan d.content)) ++
      [insertFirstChild d e (labelText editor e)] := by
  have hlabels : e.attributes (attributeNames (bytes "label")) = e.attrs.filter isLabel := rfl
  unfold projectLabels labelText
  rw [hlabels]
  cases e.attrs.filter isLabel <;> rfl

theorem editorInputs_perm (editor : Editor) (d : Document) (e : Element) :
    (editorInputs editor d e).Perm (pickerEdits editor d e) := by
  have hdropped : (e.attributes (attributeNames (bytes "mode"))).filter (fun a => unquote a.value = bytes "dropdown") =
      e.attrs.filter isDropdown := by
    rw [Element.attributes, List.filter_filter]
    refine List.filter_congr fun a _ => ?_
    rw [isDropdown, Bool.and_comm]
  unfold editorInputs pickerEdits pickerDrops
  dsimp only
  rw [hdropped]
  cases hl : hasProjectedLabel e with
  | true =>
    rw [show (firstChild? e (·.hasAttribute [bytes "igxLabel"])).isSome = true from hl]
    simp
  | false =>
    rw [show (firstChild? e (·.hasAttribute [bytes "igxLabel"])).isSome = false from hl, projectLabels_eq]
    have hmode : (if (e.attributes (attributeNames (bytes "mode"))).isEmpty = true then
        [Change.insert e.attributePos (bytes " mode=\"dialog\"")] else []) =
          (pickerMode? e).toList.map (.insert e.attributePos) := by
      unfold pickerMode?
      split <;> rfl
    have hfilter := (filter_or_perm (p := isDropdown) (q := isLabel) (fun a h => isLabel_of_isDropdown h) e.attrs).map
      fun a => Change.deleteSpan d.content (a.removalSpan d.content)
    rw [List.map_append] at hfilter
    simp only [Bool.false_eq_true, if_false, Bool.not_false, Bool.true_and]
    rw [hmode, List.append_assoc]
    refine (List.Perm.append_left _ (List.perm_append_comm_assoc _ _ _)).trans ?_
    rw [← List.append_assoc]
    exact hfilter.append_right _

/-- The template gets the warning. -/
def needsWarning (editor : Editor) (d : Document) (place : Place) : Bool :=
  (editor.isTemplate place.element && place.ancestors.any (Element.named [bytes editor.component])) &&
    !precededBy d place.element.startTag.start editor.templateWarning

/-- The migration of a picker's inputs and templates as a plan; `first` gives the labels. -/
def editorPlan (editor : Editor) (d : Document) (first : Element → Source) (place : Place) : Patch :=
  let e := place.element
  if e.named [bytes editor.component] then
    if hasProjectedLabel e then .retag (tagEdits d.content e (pickerDrops e) none e.startTag.stop)
    else .fill (tagEdits d.content e (pickerDrops e) (pickerMode? e) (openStop e)) (first e)
  else if needsWarning editor d place then .front (.text [10] :: noteGaps (editor.templateWarning.drop 1))
  else .keep

theorem warning_spec {editor : Editor} (h : editor ∈ editors) :
    editor.templateWarning = 10 :: editor.templateWarning.drop 1 ∧ IsNote (editor.templateWarning.drop 1) := by
  have hall : ∀ editor ∈ editors, editor.templateWarning.head? = some 10 ∧
      (editor.templateWarning.drop 1).take 4 = bytes "<!--" ∧
      (editor.templateWarning.drop 1).getLast? = some 10 ∧
      commentLength 0 true ((editor.templateWarning.drop 1).drop 4) + 5 = (editor.templateWarning.drop 1).length := by
    simp only [editors, List.forall_mem_cons, Editor.templateWarning]
    repeat rw [bytes_ofList]
    decide +kernel
  obtain ⟨h1, h2, h3, h4⟩ := hall editor h
  refine ⟨?_, h2, h3, h4⟩
  cases hw : editor.templateWarning with
  | nil => simp [hw] at h1
  | cons b r => simpa [hw] using h1

theorem editor_ordinary {editor : Editor} (h : editor ∈ editors) :
    Ordinary editor.component ∧ bytes editor.component ≠ bytes "ng-template" := by
  have hall : ∀ editor ∈ editors, 45 ∈ bytes editor.component ∧ bytes editor.component ≠ bytes "ng-template" := by
    decide +kernel
  exact (hall editor h).imp_left .of_dash

theorem projectedLabel_eq (visible : Option Attribute) (text : Bytes) :
    ∃ rest, projectedLabel visible text = [10, 60, 108] ++ rest := ⟨_, rfl⟩

theorem labelText_eq (editor : Editor) (e : Element) : ∃ rest, labelText editor e = [10, 60, 108] ++ rest := by
  unfold labelText
  cases e.attributes (attributeNames (bytes "label")) with
  | nil => exact projectedLabel_eq _ _
  | cons a labels =>
    obtain ⟨rest, hrest⟩ := projectedLabel_eq (e.attribute? (attributeNames "labelVisibility")) a.interpolated
    dsimp only
    rw [List.flatMap_cons, hrest]
    exact ⟨_, List.append_assoc ..⟩

/-- A label is no warning. -/
theorem labelText_ne_warning (editor : Editor) (e : Element) : labelText editor e ≠ editor.templateWarning := by
  obtain ⟨rest, hrest⟩ := labelText_eq editor e
  have hwarning : ∃ rest, editor.templateWarning = [10, 60, 33] ++ rest := ⟨_, rfl⟩
  obtain ⟨rest', hrest'⟩ := hwarning
  rw [hrest, hrest']
  simp

theorem pickerMode_ne_warning {editor : Editor} {e : Element} {text : Bytes} (h : pickerMode? e = some text) :
    text ≠ editor.templateWarning := by
  unfold pickerMode? at h
  split at h
  · cases h
    have hwarning : ∃ rest, editor.templateWarning = [10, 60, 33] ++ rest := ⟨_, rfl⟩
    obtain ⟨rest, hrest⟩ := hwarning
    rw [hrest, addedAttribute_eq]
    simp
  · cases h

theorem inserts_of_ne {d : Document} {e : Element} {w text : Bytes} (h : text ≠ w) :
    (insertFirstChild d e text).inserts w = false := by
  unfold insertFirstChild
  split
  · simp [Change.inserts, Change.replaceSpan, Change.replace]
  · simp [Change.inserts, Change.insert, h]

/-- A picker's own edits insert no warning. -/
theorem not_inserts_pickerEdits {editor : Editor} {d : Document} {e : Element} {c : Change}
    (hc : c ∈ pickerEdits editor d e) : c.inserts editor.templateWarning = false := by
  unfold pickerEdits at hc
  rcases List.mem_append.mp hc with hc | hc
  · obtain ⟨a, -, rfl⟩ := List.mem_map.mp hc
    simp [Change.inserts, Change.deleteSpan, Change.replaceSpan, Change.replace]
  · split at hc
    · simp at hc
    · rcases List.mem_append.mp hc with hc | hc
      · obtain ⟨text, htext, rfl⟩ := List.mem_map.mp hc
        have hne : text ≠ editor.templateWarning := pickerMode_ne_warning (Option.mem_toList.mp htext)
        simp [Change.inserts, Change.insert, hne]
      · rw [List.mem_singleton.mp hc]
        exact inserts_of_ne (labelText_ne_warning editor e)

variable {d : Document} {s : Source}

/-- The warnings, in the order of the templates. -/
theorem warnings_perm (hs : Reading d s) (editor : Editor) :
    (((distinct ((d.find (Element.named [bytes editor.component])).flatMap
      (·.descendants editor.isTemplate))).filter fun e =>
        !precededBy d e.startTag.start editor.templateWarning).map fun e =>
          Change.insert e.startTag.start editor.templateWarning).Perm
      (d.places.flatMap fun place => if needsWarning editor d place then
        [.insert place.element.startTag.start editor.templateWarning] else []) := by
  have hperm := ((distinct_descendants_perm hs (Element.named [bytes editor.component]) editor.isTemplate).filter
    fun e => !precededBy d e.startTag.start editor.templateWarning).map fun e =>
      Change.insert e.startTag.start editor.templateWarning
  refine hperm.trans (List.Perm.of_eq ?_)
  induction d.places with
  | nil => rfl
  | cons place rest ih =>
    rw [List.flatMap_cons, ← ih, List.filter_cons]
    cases h1 : (editor.isTemplate place.element && place.ancestors.any (Element.named [bytes editor.component])) <;>
      cases h2 : precededBy d place.element.startTag.start editor.templateWarning <;>
      simp [needsWarning, h1, h2]

theorem migrateEditors_carries (hs : Reading d s) {editor : Editor} (heditor : editor ∈ editors)
    (first : Element → Source) (hfirst : ∀ e, render (first e).pieces = labelText editor e) :
    Carries d s editor.templateWarning (editorPlan editor d first) (migrateEditors editor d) := by
  obtain ⟨hord, hne⟩ := editor_ordinary heditor
  obtain ⟨hwarning, hnote⟩ := warning_spec heditor
  have hgaps : gapText (.text [10] :: noteGaps (editor.templateWarning.drop 1)) = editor.templateWarning := by
    rw [hwarning]
    exact congrArg (10 :: ·) hnote.gapText
  have htemplate : ∀ place, needsWarning editor d place = true →
      place.element.named [bytes editor.component] = false := by
    intro place h
    simp only [needsWarning, Editor.isTemplate, Bool.and_eq_true] at h
    have hname : place.element.name = bytes "ng-template" := List.mem_singleton.mp (List.elem_iff.mp h.1.1.1)
    rw [Bool.eq_false_iff]
    intro hnamed
    have hname' : place.element.name = bytes editor.component := List.mem_singleton.mp (List.elem_iff.mp hnamed)
    exact hne (hname'.symm.trans hname)
  refine hs.carries (fun place =>
    (if place.element.named [bytes editor.component] then pickerEdits editor d place.element else []) ++
      if needsWarning editor d place then [.insert place.element.startTag.start editor.templateWarning] else [])
    ?_ ?_ ?_ ?_
  · intro x hx
    unfold editorPlan
    dsimp only
    split
    · next hnamed =>
      have hname : x.name = editor.component := List.mem_singleton.mp (name_of_named hnamed)
      split
      · exact retag_fits hx List.filter_sublist (by simp)
      · refine fill_fits hx (closed_of_ordinary hx (hname ▸ hord)) List.filter_sublist
          (fun text htext => pickerMode_ne_warning htext) ?_
        rw [hfirst]
        exact labelText_ne_warning editor _
    · split
      · exact hgaps
      · trivial
  · intro x hx
    unfold editorPlan
    dsimp only
    split
    · next hnamed =>
      have hnot : needsWarning editor d x.place = false := by
        rw [Bool.eq_false_iff]
        intro h
        rw [htemplate _ h] at hnamed
        cases hnamed
      rw [hnot]
      split
      · next hl =>
        have htail : ∀ edits, ((Patch.retag edits).tail x.closePos x.close).changes = [] := by
          intro edits
          cases x.close <;> simp [Patch.tail]
        simp [Patch.head, htail, changes_tagEdits, pickerEdits, hl]
      · next hl =>
        rw [changes_fill hx, changes_tagEdits, hfirst]
        simp [pickerEdits, hl]
    · split
      · rw [changes_front, hgaps]
        rfl
      · exact changes_keep x
  · refine List.Perm.trans ?_ (List.flatMap_append_perm d.places _ _)
    refine List.Perm.append ?_ (warnings_perm hs editor)
    have hpickers := List.Perm.flatMap_left (d.find (Element.named [bytes editor.component]))
      fun e _ => editorInputs_perm editor d e
    rw [flatMap_find d _ (pickerEdits editor d)] at hpickers
    exact hpickers
  · refine List.pairwise_append.mpr ⟨pairwise_of_not_inserts fun c hc => ?_, ?_, fun a ha b hb hw => ?_⟩
    · obtain ⟨e, -, hc⟩ := List.mem_flatMap.mp hc
      exact not_inserts_pickerEdits ((editorInputs_perm editor d e).mem_iff.mp hc)
    · refine List.pairwise_map.mpr (List.pairwise_of_forall fun a b _ => ?_)
      simp [Change.inserts, Change.insert]
    · obtain ⟨e, -, rfl⟩ := List.mem_map.mp hb
      simp [Change.inserts, Change.insert]

/-- Pickers that are one start tag after their edits stay whole, with labels that stand alone. -/
theorem editorPlan_sound {editor : Editor} (heditor : editor ∈ editors) {first : Element → Source} {x : Spot}
    (hwhole : x.place.element.named [bytes editor.component] = true →
      let e := x.place.element
      if hasProjectedLabel e then
        WholeTag (tagEdits d.content e (pickerDrops e) none e.startTag.stop).target x.name x.selfClosing
      else
        WholeTag (Patch.filledTag (tagEdits d.content e (pickerDrops e) (pickerMode? e) (openStop e)) x.selfClosing)
          x.name false ∧ (first e).Standalone) :
    (editorPlan editor d first x.place).Sound x := by
  unfold editorPlan
  dsimp only
  split
  · next hnamed =>
    have hname : x.name = editor.component := List.mem_singleton.mp (name_of_named hnamed)
    have hord : Ordinary x.name := hname ▸ (editor_ordinary heditor).1
    have hwhole := hwhole hnamed
    dsimp only at hwhole
    split
    · next hl =>
      rw [if_pos hl] at hwhole
      exact ⟨hwhole.isStartTag, hwhole.name⟩
    · next hl =>
      rw [if_neg hl] at hwhole
      exact ⟨hord, hwhole.1.isStartTag, hwhole.1.name, hwhole.2⟩
  · split
    · next h =>
      simp only [needsWarning, Editor.isTemplate, Bool.and_eq_true] at h
      have hname : x.name = bytes "ng-template" := List.mem_singleton.mp (name_of_named h.1.1.1)
      refine ⟨hname ▸ template_ordinary, ?_⟩
      exact precedes_append precedes_break (warning_spec heditor).2.precedes
    · trivial

end Codemod.Release12
