import Codemod.Proofs.Release12.Plan
import Codemod.Proofs.Release12.Editor
import Codemod.Proofs.Release12.Panel

namespace Codemod.Release12

open Edit Markup Migration

/-- The rules for templates. -/
inductive TemplateRule where
  | alignment
  | wrap (f : Family)
  | headers (f : Family)
  | panels (f : Family)
  | review (f : Family)
  | inputs (editor : Editor)

namespace TemplateRule

def edits : TemplateRule → Document → Bool → List Change
  | alignment, d, _ => alignTabs d
  | wrap f, d, _ => wrapTemplates f d
  | headers f, d, _ => addHeaders f d
  | panels f, d, _ => addPanels f d
  | review f, d, touched => addReviewComments f d touched
  | inputs editor, d, _ => migrateEditors editor d

/-- What is read of the result has to be what was meant: inserted markup stands alone, and an
edited start tag is still one start tag. Tabs that are aligned, templates that become headers and
review comments need nothing. -/
def ReadsBack (d : Document) : TemplateRule → Prop
  | alignment => True
  | wrap _ => True
  | headers f => ∀ e ∈ d.find f.isItem, ∀ text ∈ newHeader? f e,
      StandsAlone text ∧ (d.text e.startTag).endsWith "//>" = false
  | panels f => ∀ e ∈ d.find f.isItem, ∀ tag ∈ newPanel? f d e, WholeTag tag f.panelTag false
  | review _ => True
  | inputs editor => ∀ e ∈ d.find (Element.named [bytes editor.component]),
      if hasProjectedLabel e then
        WholeTag (tagEdits d.content e (pickerDrops e) none e.startTag.stop).target e.name e.selfClosing
      else
        WholeTag (Patch.filledTag (tagEdits d.content e (pickerDrops e) (pickerMode? e) (openStop e)) e.selfClosing)
          e.name false ∧
        StandsAlone (labelText editor e)

end TemplateRule

/-- The rules for templates in the order in which they run. -/
def templateRules : List TemplateRule :=
  [.alignment] ++ (families.flatMap fun f => [.wrap f, .headers f, .panels f, .review f]) ++ editors.map .inputs

/-- A rule of a family or for an editor that is migrated. -/
def TemplateRule.Known : TemplateRule → Prop
  | .alignment => True
  | .wrap f | .headers f | .panels f | .review f => f ∈ families
  | .inputs editor => editor ∈ editors

theorem mem_templateRules {r : TemplateRule} : r ∈ templateRules ↔ r.Known := by
  cases r <;> simp [templateRules, TemplateRule.Known]

/-- What a rule asks of a file. -/
def TemplateRule.apply (r : TemplateRule) (c : Context) : Verdict :=
  ⟨.ok (match c.document with
    | some d => r.edits d c.touched
    | none => []), false⟩

/-- They are the template rules of the stages. -/
theorem templateRules_apply :
    (stages.filter (·.rule.kind = .template)).map (·.rule.apply) = templateRules.map TemplateRule.apply := by
  rfl

variable {d : Document} {s : Source}

theorem mem_find {x : Spot} (hx : x.place ∈ d.places) {select : Element → Bool} (h : select x.place.element = true) :
    x.place.element ∈ d.find select :=
  List.mem_filter.mpr ⟨List.mem_map_of_mem hx, h⟩

theorem text_startTag {x : Spot} (hx : x.In d.content) : d.text x.place.element.startTag = x.tag := hx.slice_tag

/-- Headers that stand alone as they are inserted. -/
noncomputable def headerFragment (f : Family) (e : Element) : Source := fragment ((newHeader? f e).getD [])

/-- The tree after a rule's edits, which always apply. It is read back where what the rule writes
is. -/
theorem exists_applied {r : TemplateRule} (hr : r ∈ templateRules) (hs : Reading d s) (touched : Bool) :
    ∃ s' : Source, applyChanges d.content (r.edits d touched) = .ok (render s'.pieces) ∧
      (r.ReadsBack d → s'.WellFormed) := by
  cases r with
  | alignment =>
    have h := alignTabs_carries hs
    exact ⟨_, h.apply, fun _ => hs.wellFormed_patch h fun x hx _ => alignmentPlan_sound hx⟩
  | wrap f =>
    have hf : f ∈ families := mem_templateRules.mp hr
    have h := wrapTemplates_carries hs f
    exact ⟨_, h.apply, fun _ => hs.wellFormed_patch h fun x _ _ => wrapPlan_sound hf x⟩
  | headers f =>
    have hf : f ∈ families := mem_templateRules.mp hr
    have h := addHeaders_carries hs hf (headerFragment f) fun e text htext => by
      rw [headerFragment, render_fragment, htext, Option.getD_some]
    refine ⟨_, h.apply, fun hreads =>
      hs.wellFormed_patch h fun x hx hplace => headerPlan_sound hf hx fun hitem hnew => ?_⟩
    obtain ⟨text, htext⟩ := Option.isSome_iff_exists.mp hnew
    obtain ⟨halone, hslash⟩ := hreads x.place.element (mem_find hplace hitem) text htext
    rw [text_startTag hx] at hslash
    rw [headerFragment, htext]
    exact ⟨halone.fragment, hslash⟩
  | panels f =>
    have hf : f ∈ families := mem_templateRules.mp hr
    refine ⟨_, addPanels_apply hs f, fun hreads =>
      wellFormed_panels hs hf fun x hx hplace hitem tag htag => ?_⟩
    obtain ⟨h1, h2⟩ := hreads x.place.element (mem_find hplace hitem) tag htag
    exact ⟨h1, h2⟩
  | review f =>
    have hf : f ∈ families := mem_templateRules.mp hr
    have h := addReviewComments_carries hs f touched
    exact ⟨_, h.apply, fun _ => hs.wellFormed_patch h fun x _ _ => reviewPlan_sound hf touched x⟩
  | inputs editor =>
    have heditor : editor ∈ editors := mem_templateRules.mp hr
    have h := migrateEditors_carries hs heditor (fun e => fragment (labelText editor e))
      fun e => render_fragment _
    refine ⟨_, h.apply, fun hreads =>
      hs.wellFormed_patch h fun x hx hplace => editorPlan_sound heditor fun hnamed => ?_⟩
    have hread := hreads x.place.element (mem_find hplace hnamed)
    have hself : x.place.element.selfClosing = x.selfClosing := rfl
    rw [name_place, hself] at hread
    dsimp only
    split
    · next hl =>
      rw [if_pos hl] at hread
      exact hread
    · next hl =>
      rw [if_neg hl] at hread
      exact ⟨hread.1, hread.2.fragment⟩

theorem exists_wellFormed {r : TemplateRule} (hr : r ∈ templateRules) (hs : Reading d s) (touched : Bool)
    (hreads : r.ReadsBack d) :
    ∃ s' : Source, applyChanges d.content (r.edits d touched) = .ok (render s'.pieces) ∧ s'.WellFormed := by
  obtain ⟨s', happly, hwell⟩ := exists_applied hr hs touched
  exact ⟨s', happly, hwell hreads⟩

theorem apply_of_mem_zip {stage : Stage} {r : TemplateRule}
    (h : (stage, r) ∈ (stages.filter (·.rule.kind = .template)).zip templateRules) :
    stage.rule.apply = r.apply := by
  obtain ⟨i, hi⟩ := List.mem_iff_getElem?.mp h
  obtain ⟨h1, h2⟩ := List.getElem?_zip_eq_some.mp hi
  have happly := congrArg (·[i]?) templateRules_apply
  simp only [List.getElem?_map, h1, h2, Option.map_some, Option.some.injEq] at happly
  exact happly

/-- Where what a template rule writes reads back, its edits apply to every template and leave one. -/
theorem parse_of_stage {stage : Stage} {r : TemplateRule}
    (hstage : (stage, r) ∈ (stages.filter (·.rule.kind = .template)).zip templateRules)
    {path content : Bytes} {d : Document} (hparse : Document.parse path content = .ok d) (touched : Bool)
    (hreads : r.ReadsBack d) :
    ∃ changes updated d', (stage.rule.apply ⟨path, content, some d, touched, false⟩).edits = .ok changes ∧
      applyChanges content changes = .ok updated ∧ Document.parse path updated = .ok d' := by
  obtain ⟨s, hs, hcontent⟩ := exists_reading hparse
  obtain ⟨s', happly, hwell⟩ := exists_wellFormed (List.of_mem_zip hstage).2 hs touched hreads
  rw [hcontent] at happly
  exact ⟨r.edits d touched, _, _, by rw [apply_of_mem_zip hstage]; rfl, happly, hwell.parse_render path⟩

/-- A label without markup reads back. -/
theorem parse_of_stage_label :
    ∃ stage ∈ stages, ∃ d changes updated d',
      Document.parse "a.html" "<igx-tabs><igx-tabs-group label='a < b' /></igx-tabs>" = .ok d ∧
      (stage.rule.apply ⟨"a.html", "<igx-tabs><igx-tabs-group label='a < b' /></igx-tabs>", some d, true, false⟩).edits =
        .ok changes ∧
      applyChanges "<igx-tabs><igx-tabs-group label='a < b' /></igx-tabs>" changes = .ok updated ∧
      Document.parse "a.html" updated = .ok d' := by
  have hcheck : ((Document.parse "a.html" "<igx-tabs><igx-tabs-group label='a < b' /></igx-tabs>").toOption.map fun d =>
      (d.find tabs.isItem).all fun e => headerOpening tabs e = openTag tabs.headerTag &&
        (e.attribute? (attributeNames "icon")).isNone &&
        (e.attribute? (attributeNames "label")).all (calm ·.interpolated) &&
        !(d.text e.startTag).endsWith "//>") = some true := by
    repeat rw [bytes_ofList]
    decide +kernel
  cases hparse : Document.parse "a.html" "<igx-tabs><igx-tabs-group label='a < b' /></igx-tabs>" with
  | error e => rw [hparse] at hcheck; cases hcheck
  | ok d =>
    rw [hparse] at hcheck
    have hf : tabs ∈ families := by simp [families]
    have hreads : (TemplateRule.headers tabs).ReadsBack d := by
      intro e he text htext
      have h := List.all_eq_true.mp (Option.some.inj hcheck) e he
      simp only [Bool.and_eq_true, decide_eq_true_eq, Bool.not_eq_true'] at h
      obtain ⟨⟨⟨h1, h2⟩, h3⟩, h4⟩ := h
      have hname := (header_ordinary hf).2
      refine ⟨⟨headerSource tabs e, PlainHeader.standalone hf ⟨?_, ?_, ?_⟩, render_headerSource htext⟩, h4⟩
      · rw [h1]
        exact ⟨hname.isStartTag, hname.startTagName⟩
      · rw [Option.isNone_iff_eq_none.mp h2]
        simp
      · intro a ha
        rw [ha] at h3
        exact h3
    have hstage : ∃ stage ∈ stages, (stage, TemplateRule.headers tabs) ∈
        (stages.filter (·.rule.kind = .template)).zip templateRules := by
      refine ⟨(familyStages tabs)[1], List.mem_iff_getElem?.mpr ⟨7, rfl⟩, List.mem_iff_getElem?.mpr ⟨6, rfl⟩⟩
    obtain ⟨stage, hmem, hzip⟩ := hstage
    obtain ⟨changes, updated, d', h⟩ := parse_of_stage hzip hparse true hreads
    exact ⟨stage, hmem, d, changes, updated, d', rfl, h⟩

theorem exists_templateRule {stage : Stage} (hstage : stage ∈ stages) (hkind : stage.rule.kind = .template) :
    ∃ r ∈ templateRules, stage.rule.apply = r.apply := by
  have hmem : stage.rule.apply ∈ (stages.filter (·.rule.kind = .template)).map (·.rule.apply) :=
    List.mem_map_of_mem (List.mem_filter.mpr ⟨hstage, decide_eq_true hkind⟩)
  rw [templateRules_apply] at hmem
  obtain ⟨r, hr, happly⟩ := List.mem_map.mp hmem
  exact ⟨r, hr, happly.symm⟩

/-- The edits that a template rule asks for never contradict one another: they apply to every
template that they are made for, whatever they leave. -/
theorem applies_of_stage {stage : Stage} (hstage : stage ∈ stages) (hkind : stage.rule.kind = .template)
    {path content : Bytes} {d : Document} (hparse : Document.parse path content = .ok d)
    (touched cancelled : Bool) :
    ∃ changes updated, (stage.rule.apply ⟨path, content, some d, touched, cancelled⟩).edits = .ok changes ∧
      applyChanges content changes = .ok updated := by
  obtain ⟨r, hr, happly⟩ := exists_templateRule hstage hkind
  obtain ⟨s, hs, hcontent⟩ := exists_reading hparse
  obtain ⟨s', happlied, -⟩ := exists_applied hr hs touched
  rw [hcontent] at happlied
  exact ⟨r.edits d touched, _, by rw [happly]; rfl, happlied⟩

/-- A self-closing picker that loses all its attributes and gets two labels where its slash
stands. -/
theorem applies_of_stage_picker :
    ∃ stage ∈ stages, stage.rule.kind = .template ∧ ∃ d changes updated,
      Document.parse "a.html" "<igx-date-picker mode='dropdown' label=a\t[label]=\"b\"/>" = .ok d ∧
      (stage.rule.apply ⟨"a.html", "<igx-date-picker mode='dropdown' label=a\t[label]=\"b\"/>", some d, false, false⟩).edits =
        .ok changes ∧
      applyChanges "<igx-date-picker mode='dropdown' label=a\t[label]=\"b\"/>" changes = .ok updated := by
  have hparses : (Document.parse "a.html" "<igx-date-picker mode='dropdown' label=a\t[label]=\"b\"/>").toOption.isSome =
      true := by
    repeat rw [bytes_ofList]
    decide +kernel
  cases hparse : Document.parse "a.html" "<igx-date-picker mode='dropdown' label=a\t[label]=\"b\"/>" with
  | error e => rw [hparse] at hparses; cases hparses
  | ok d =>
    have hstage : stages[12] ∈ stages := List.getElem_mem _
    obtain ⟨changes, updated, h⟩ := applies_of_stage hstage rfl hparse false false
    exact ⟨stages[12], hstage, rfl, d, changes, updated, rfl, h⟩

end Codemod.Release12
