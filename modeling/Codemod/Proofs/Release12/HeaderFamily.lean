import Codemod.Proofs.Markup.Outline
import Codemod.Proofs.Release12.Rerun
import Codemod.Proofs.Release12.TabSteps

namespace Codemod.Release12

open Edit Markup

/-- The start tag of a template for the header of a tab. -/
def isTabOpening (o : Opening) : Bool := o.name == bytes "ng-template" && o.attrs.any (·.1 == bytes "igxTab")

def Family.isItemOpening (f : Family) (o : Opening) : Bool := (f.tags.map bytes).contains o.name

/-- The outline with a header in place of every tab template below an item; `inside` tells whether
it stands below one. A header has no attributes, and always an end tag. -/
def wrapped (f : Family) (inside : Bool) : Outline → Outline
  | .rest text => .rest text
  | .element before opening inner close next =>
    let inner := wrapped f (inside || f.isItemOpening opening) inner
    let next := wrapped f inside next
    if inside && isTabOpening opening then
      .element before ⟨openTag f.headerTag, f.headerTag, [], false⟩ inner (some (closeTag f.headerTag)) next
    else .element before opening inner close next

theorem isTabTemplate_node (p : Nat) (tag : Bytes) (selfClosing : Bool) (inner : Source) (close : Option Bytes) :
    isTabTemplate (Source.node p tag selfClosing inner close) = isTabOpening (openingOf tag selfClosing) := by
  rw [isTabTemplate, Element.named, Source.name_node, Element.hasAttribute_eq, Source.keys_node]
  simp only [List.contains_cons, List.contains_nil, Bool.or_false]
  rfl

theorem isItem_node (f : Family) (p : Nat) (tag : Bytes) (selfClosing : Bool) (inner : Source) (close : Option Bytes) :
    f.isItem (Source.node p tag selfClosing inner close) = f.isItemOpening (openingOf tag selfClosing) := by
  rw [Family.isItem, Element.named, Source.name_node]
  rfl

theorem openingOf_header {f : Family} (hf : f ∈ families) :
    openingOf (openTag f.headerTag) false = ⟨openTag f.headerTag, f.headerTag, [], false⟩ := by
  have hkeys : ∀ f ∈ families, (Element.ofTag (openTag f.headerTag)).keys = [] := by decide +kernel
  rw [openingOf, (header_ordinary hf).2.startTagName, hkeys f hf]

/-- Renaming the templates of a tree renames them in its outline. -/
theorem outline_patch {f : Family} (hf : f ∈ families) (s : Source) (above : List Element) (p : Nat) (before : Bytes) :
    (s.patch (wrapPlan f) above p).outline before = wrapped f (above.any f.isItem) (s.outline before) := by
  induction s generalizing above p before with
  | nil => rfl
  | gap g next ih => exact ih ..
  | element tag selfClosing inner close next ih1 ih2 =>
    have hplan : becomesHeader f ⟨Source.node p tag selfClosing inner close, above⟩ =
        (above.any f.isItem && isTabOpening (openingOf tag selfClosing)) := by
      rw [becomesHeader, isTabTemplate_node, Bool.and_comm]
    have hinner := ih1 (Source.node p tag selfClosing inner close :: above) (p + tag.length) []
    rw [List.any_cons, isItem_node, Bool.or_comm] at hinner
    rw [Source.patch, Source.outline, wrapped, wrapPlan, hplan]
    split
    · rw [Patch.source, Source.outline, hinner, ih2, openingOf_header hf]
    · rw [Patch.source, Source.outline, hinner, ih2]

/-- Making headers of tab templates applies to every template, leaves all else as it is and has
nothing left to do afterwards. -/
theorem outline_wrapTemplates {f : Family} (hf : f ∈ families) {path content : Bytes} {d : Document}
    (hparse : Document.parse path content = .ok d) :
    ∃ updated d', applyChanges content (wrapTemplates f d) = .ok updated ∧
      Document.parse path updated = .ok d' ∧
      d.outline.render = content ∧ d'.outline = wrapped f false d.outline ∧ d'.outline.render = updated ∧
      wrapTemplates f d' = [] := by
  obtain ⟨s, hs, hcontent⟩ := exists_reading hparse
  have hcarries := wrapTemplates_carries hs f
  have hstep := wrap_step hs hf
  have hwell := hstep.wellFormed
  have hparse' := hwell.parse_render path
  have hbefore : d.outline = s.outline [] := by
    obtain ⟨p, c, r⟩ := d
    obtain ⟨hwf, hc, rfl⟩ := hs
    exact Source.outline_of_wellFormed hwf hc
  refine ⟨_, _, by rw [← hcontent]; exact hcarries.apply, hparse', render_outline_of_parse hparse, ?_,
    render_outline_of_parse hparse', ?_⟩
  · rw [Source.outline_of_wellFormed hwell rfl, hbefore]
    exact outline_patch hf s [] 0 []
  · exact wrapTemplates_eq_nil ⟨hwell, rfl, rfl⟩ hstep.done

/-- A template in a template, the inner one in a paragraph that the outer one ends. -/
theorem outline_wrapTemplates_nested :
    ∃ d d',
      Document.parse "a.html" "<igx-tab-item><ng-template a='b' igxTab><p>x<ng-template igxTab/></ng-template ></igx-tab-item>" =
        .ok d ∧
      applyChanges "<igx-tab-item><ng-template a='b' igxTab><p>x<ng-template igxTab/></ng-template ></igx-tab-item>"
        (wrapTemplates tabs d) =
        .ok (bytes "<igx-tab-item><igx-tab-header><p>x<igx-tab-header></igx-tab-header></igx-tab-header></igx-tab-item>") ∧
      Document.parse "a.html"
          "<igx-tab-item><igx-tab-header><p>x<igx-tab-header></igx-tab-header></igx-tab-header></igx-tab-item>" =
        .ok d' ∧
      d'.outline = wrapped tabs false d.outline ∧ wrapTemplates tabs d' = [] := by
  generalize htext : bytes "<igx-tab-item><ng-template a='b' igxTab><p>x<ng-template igxTab/></ng-template ></igx-tab-item>" =
    text
  have hcheck : (Document.parse "a.html" text).toOption.map (fun d => (wrapped tabs false d.outline).render) =
      some (bytes "<igx-tab-item><igx-tab-header><p>x<igx-tab-header></igx-tab-header></igx-tab-header></igx-tab-item>") := by
    rw [← htext]
    repeat rw [bytes_ofList]
    decide +kernel
  cases hparse : Document.parse "a.html" text with
  | error e => rw [hparse] at hcheck; cases hcheck
  | ok d =>
    obtain ⟨updated, d', happly, hparse', -, houtline, hrender, hquiet⟩ :=
      outline_wrapTemplates (f := tabs) (by simp [families]) hparse
    rw [hparse] at hcheck
    rw [houtline] at hrender
    rw [← hrender, show (wrapped tabs false d.outline).render = _ from Option.some.inj hcheck] at happly hparse'
    exact ⟨d, d', rfl, happly, hparse', houtline, hquiet⟩

end Codemod.Release12

namespace Codemod

open Edit Markup Workspace

namespace Migration

/-- A file that no stage has given up. -/
def FileView.Live (v : FileView) : Prop := ∀ st, v.state = some st → st.failure = none

section File

variable {free : Prop} {path : Bytes} {stage : Stage} {v u : FileView} {writes : List (Bytes × Nat)}

theorem FileView.Live.current {v : FileView} (h : v.Live) (path : Bytes) (kind : Kind) :
    (v.current path kind).failure = none := by
  unfold FileView.current
  cases hst : v.state with
  | none => rfl
  | some st => exact h st hst

/-- A stage that asks for edits which apply, whatever it is told of the file, leaves what they
make of it. -/
theorem FileStep.content_of_edits (h : FileStep free path stage true v u writes) (hfree : free) (hv : v.Live)
    {f : MemoryFile} (hf : v.file = some f) {next : Bytes}
    (hedits : ∀ touched, ∃ changes, stage.edits? path f.content touched = some changes ∧
      applyChanges f.content changes = .ok next) :
    ∃ g, u.file = some g ∧ g.content = next ∧ u.Live := by
  have hlive := hv.current path stage.rule.kind
  have hsame {g : MemoryFile} (hg : v.file = some g) : g = f := Option.some.inj (hg.symm.trans hf)
  obtain ⟨changes, hasks, happly⟩ := hedits (!stage.group.isEmpty &&
    (v.current path stage.rule.kind).touched.contains stage.group)
  cases h with
  | unseen seen => cases seen
  | passedOver _ dead =>
    rw [hlive] at dead
    cases dead
  | kept _ _ before asks apply =>
    obtain rfl := hsame before
    obtain rfl := Option.some.inj (hasks.symm.trans asks)
    refine ⟨_, before, Except.ok.inj (apply.symm.trans happly), ?_⟩
    rintro st ⟨⟩
    exact hlive
  | failed _ _ e why => exact absurd happly (why hfree f changes next hf hasks)
  | written _ _ before asks apply =>
    obtain rfl := hsame before
    obtain rfl := Option.some.inj (hasks.symm.trans asks)
    refine ⟨_, rfl, Except.ok.inj (apply.symm.trans happly), ?_⟩
    rintro st ⟨⟩
    exact hlive

end File

end Migration

namespace Release12

open Migration

/-- The outline with a header in place of every tab template that `choose` finds a family for;
it is given the start tags around the template, nearest first. -/
def headed (choose : List Opening → Option Family) (above : List Opening) : Outline → Outline
  | .rest text => .rest text
  | .element before opening inner close next =>
    let inner := headed choose (opening :: above) inner
    let next := headed choose above next
    match if isTabOpening opening then choose above else none with
    | some f => .element before ⟨openTag f.headerTag, f.headerTag, [], false⟩ inner (some (closeTag f.headerTag)) next
    | none => .element before opening inner close next

/-- The first family, in the order of the stages, with an item around. -/
def firstFamily? (above : List Opening) : Option Family := families.find? fun f => above.any f.isItemOpening

/-- The family of the nearest item. -/
def nearestFamily? (above : List Opening) : Option Family :=
  above.findSome? fun opening => families.find? (·.isItemOpening opening)

theorem isItemOpening_of_isTabOpening {f : Family} (hf : f ∈ families) {o : Opening} (h : isTabOpening o = true) :
    f.isItemOpening o = false := by
  obtain ⟨-, -, -, -, -, hplain⟩ := TemplateRule.tags_apart hf
  have hname : o.name = bytes "ng-template" := by
    have := (Bool.and_eq_true_iff.mp h).1
    simpa using this
  rw [Family.isItemOpening, hname, Bool.eq_false_iff]
  exact fun hitem => hplain (List.contains_iff_mem.mp hitem)

/-- Making headers for the items of one family and then for those of the other: a template around
which both have items goes to the first. -/
theorem wrapped_wrapped (above : List Opening) (o : Outline) :
    wrapped tabs (above.any tabs.isItemOpening) (wrapped bottomNav (above.any bottomNav.isItemOpening) o) =
      headed firstFamily? above o := by
  have hheader : isTabOpening ⟨openTag bottomNav.headerTag, bottomNav.headerTag, [], false⟩ = false ∧
      tabs.isItemOpening ⟨openTag bottomNav.headerTag, bottomNav.headerTag, [], false⟩ = false := by decide +kernel
  induction o generalizing above with
  | rest text => rfl
  | element before opening inner close next ih1 ih2 =>
    have hinner := ih1 (opening :: above)
    rw [List.any_cons, List.any_cons, Bool.or_comm, Bool.or_comm (bottomNav.isItemOpening opening)] at hinner
    rw [headed, ← hinner, ← ih2 above, wrapped]
    by_cases htab : isTabOpening opening = true
    · have hfirst := isItemOpening_of_isTabOpening (f := bottomNav) (by simp [families]) htab
      have hsecond := isItemOpening_of_isTabOpening (f := tabs) (by simp [families]) htab
      cases hb : above.any bottomNav.isItemOpening with
      | true =>
        have hfamily : firstFamily? above = some bottomNav := by simp [firstFamily?, families, hb]
        simp only [htab, hfamily, hfirst, hsecond, hheader, wrapped, Bool.and_self, Bool.and_false, Bool.or_false,
          if_true, Bool.false_eq_true, if_false]
      | false =>
        cases ht : above.any tabs.isItemOpening with
        | true =>
          have hfamily : firstFamily? above = some tabs := by simp [firstFamily?, families, hb, ht]
          simp only [htab, hfamily, hfirst, hsecond, wrapped, Bool.and_self, Bool.false_and, Bool.or_false, if_true,
            Bool.false_eq_true, if_false]
        | false =>
          have hfamily : firstFamily? above = none := by simp [firstFamily?, families, hb, ht]
          simp only [hfamily, hfirst, hsecond, wrapped, Bool.false_and, Bool.or_false, Bool.false_eq_true, if_false,
            ite_self]
    · simp only [htab, wrapped, Bool.and_false, Bool.false_eq_true, if_false]

/-- One family's headers: the edits apply and the outline follows. -/
theorem exists_wrapped {f : Family} (hf : f ∈ families) {path content : Bytes} {d : Document}
    (hparse : Document.parse path content = .ok d) :
    ∃ updated d', applyChanges content (wrapTemplates f d) = .ok updated ∧ Document.parse path updated = .ok d' ∧
      d'.outline = wrapped f false d.outline := by
  obtain ⟨s, hs, hcontent⟩ := exists_reading hparse
  have hwell := (wrap_step hs hf).wellFormed
  refine ⟨_, _, hcontent ▸ (wrapTemplates_carries hs f).apply, hwell.parse_render path, ?_⟩
  obtain ⟨_, content, _⟩ := d
  obtain ⟨hwf, hrender, rfl⟩ := hs
  rw [Source.outline_of_wellFormed hwell rfl, Source.outline_of_wellFormed hwf hrender]
  exact outline_patch hf s [] 0 []

/-- The stage that makes headers of the tab templates of a family. -/
def wrapStage (f : Family) : Stage where
  rule := .template (f.component ++ "-wrap-template") "Wrap tab templates"
    ("Replaces ng-template igxTab inside " ++ f.component ++ " items with <" ++ f.headerTag ++ ">")
    fun d _ => wrapTemplates f d
  group := f.component

/-- The migration without its other stages. -/
def wrapping : Migration :=
  { migration with
    stages := migration.stages.filter fun stage =>
      ["igx-bottom-nav-wrap-template", "igx-tabs-wrap-template"].contains stage.rule.id }

theorem stages_wrapping : wrapping.stages = [wrapStage bottomNav, wrapStage tabs] := by
  rfl

theorem edits?_wrapStage {f : Family} {path content : Bytes} {d : Document}
    (hparse : Document.parse path content = .ok d) (touched : Bool) :
    (wrapStage f).edits? path content touched = some (wrapTemplates f d) := by
  unfold Stage.edits?
  rw [hparse]
  rfl

/-- Both stages over any files leave every template with its headers. -/
theorem exists_headed {files : FileSet} (hd : files.Distinct) (tree : Memory) {path : Bytes}
    (hpath : path ∈ files.templates) {f : MemoryFile} (hfile : tree.file? path = some f) {d : Document}
    (hparse : Document.parse path f.content = .ok d) :
    ∃ g d', (run Memory.store [] files wrapping false tree).tree.file? path = some g ∧
      Document.parse path g.content = .ok d' ∧ d'.outline = headed firstFamily? [] d.outline := by
  obtain ⟨first, d1, happly1, hparse1, houtline1⟩ := exists_wrapped (f := bottomNav) (by simp [families]) hparse
  obtain ⟨second, d2, happly2, hparse2, houtline2⟩ := exists_wrapped (f := tabs) (by simp [families]) hparse1
  have hun : (runStages (Memory.store.refusing (fun _ => none) (fun _ => none)) [] files wrapping.version
      wrapping.stages ⟨tree, [], .empty, false, []⟩).progress.cancelled = false := by
    refine runStages_uncancelled [] files wrapping.version (fun stage hstage => ?_) rfl
    exact cancels_eq_false stage (List.mem_filter.mp hstage).1
  obtain ⟨history, hstages, -, -, hruns⟩ := runStages_history hd wrapping.stages hun
  have hlooks (x : Family) : looks [] files path (wrapStage x) = true := by
    have hsorted : path ∈ Bytes.sort files.templates := (List.mergeSort_perm ..).mem_iff.mpr hpath
    simpa [looks, wrapStage, Rule.template, Rule.pure, FileSet.files] using hsorted
  have hrun := hruns path
  rw [stages_wrapping] at hstages
  obtain ⟨⟨_, writes1⟩, rest, rfl, rfl, hrest⟩ := List.map_eq_cons_iff.mp hstages
  obtain ⟨⟨_, writes2⟩, rest, rfl, rfl, hnil⟩ := List.map_eq_cons_iff.mp hrest
  obtain rfl := List.map_eq_nil_iff.mp hnil
  cases hrun with
  | cons step1 hrun =>
    rw [hlooks] at step1
    have hstart : FileView.Live (Progress.view path ⟨tree, [], .empty, false, []⟩) := by rintro st ⟨⟩
    obtain ⟨g1, hg1, rfl, hlive1⟩ := step1.content_of_edits ⟨rfl, rfl⟩ hstart hfile fun touched =>
      ⟨_, edits?_wrapStage hparse touched, happly1⟩
    cases hrun with
    | cons step2 hrun =>
      rw [hlooks] at step2
      obtain ⟨g2, hg2, rfl, -⟩ := step2.content_of_edits ⟨rfl, rfl⟩ hlive1 hg1 fun touched =>
        ⟨_, edits?_wrapStage hparse1 touched, happly2⟩
      cases hrun
      refine ⟨g2, d2, hg2, hparse2, ?_⟩
      rw [houtline2, houtline1]
      exact wrapped_wrapped [] d.outline

/-- No item of the second family stands inside one of the first; `above` are the start tags
around. -/
def apart (above : List Opening) : Outline → Bool
  | .rest _ => true
  | .element _ opening inner _ next =>
    !(tabs.isItemOpening opening && above.any bottomNav.isItemOpening) && apart (opening :: above) inner &&
      apart above next

/-- Where no item of the second family has one of the first around it, the nearest item is of the
first family that has any. -/
theorem nearestFamily?_eq {above : List Opening}
    (h : above.Pairwise fun o outer => tabs.isItemOpening o = true → bottomNav.isItemOpening outer = false) :
    nearestFamily? above = firstFamily? above := by
  induction above with
  | nil => rfl
  | cons o above ih =>
    obtain ⟨hhead, htail⟩ := List.pairwise_cons.mp h
    have hrest := ih htail
    unfold nearestFamily? firstFamily? families at hrest ⊢
    simp only [List.findSome?_cons, List.find?_cons, List.find?_nil, List.any_cons] at hrest ⊢
    cases hb : bottomNav.isItemOpening o with
    | true => simp
    | false =>
      cases ht : tabs.isItemOpening o with
      | false => simpa [hb, ht] using hrest
      | true =>
        have hnone : above.any bottomNav.isItemOpening = false := by
          rw [List.any_eq_false]
          intro outer houter
          simp [hhead outer houter ht]
        simp [hnone]

theorem headed_nearestFamily? {above : List Opening} {o : Outline} (h : apart above o = true)
    (habove : above.Pairwise fun o outer => tabs.isItemOpening o = true → bottomNav.isItemOpening outer = false) :
    headed nearestFamily? above o = headed firstFamily? above o := by
  induction o generalizing above with
  | rest text => rfl
  | element before opening inner close next ih1 ih2 =>
    simp only [apart, Bool.and_eq_true, Bool.not_eq_true', Bool.and_eq_false_iff] at h
    obtain ⟨⟨hself, hinner⟩, hnext⟩ := h
    have hcons : (opening :: above).Pairwise
        fun o outer => tabs.isItemOpening o = true → bottomNav.isItemOpening outer = false := by
      refine List.pairwise_cons.mpr ⟨fun outer houter hitem => ?_, habove⟩
      have hnone := hself.resolve_left (by simp [hitem])
      simpa using List.any_eq_false.mp hnone outer houter
    rw [headed, headed, ih1 hinner hcons, ih2 hnext habove, nearestFamily?_eq habove]

/-- After both stages every tab template around which a family has items is a header: of the first
such family in the order of the stages. That is the family of the nearest item, unless an item of
the second family stands inside one of the first. -/
theorem headed_of_run {files : FileSet} (hd : files.Distinct) (tree : Memory) {path : Bytes}
    (hpath : path ∈ files.templates) {f : MemoryFile} (hfile : tree.file? path = some f) {d : Document}
    (hparse : Document.parse path f.content = .ok d) :
    ∃ g d', (run Memory.store [] files wrapping false tree).tree.file? path = some g ∧
      Document.parse path g.content = .ok d' ∧ d'.outline = headed firstFamily? [] d.outline ∧
      (apart [] d.outline = true → d'.outline = headed nearestFamily? [] d.outline) := by
  obtain ⟨g, d', hg, hparse', houtline⟩ := exists_headed hd tree hpath hfile hparse
  refine ⟨g, d', hg, hparse', houtline, fun hapart => ?_⟩
  rw [headed_nearestFamily? hapart List.Pairwise.nil]
  exact houtline

/-- With an item of the first family inside one of the second both readings agree; the other way
round the first family has its way. -/
theorem nested_outlines :
    (Document.parse "a.html" "<igx-tabs-group><igx-tab><ng-template igxTab/></igx-tab></igx-tabs-group>").toOption.map
      (fun d => apart [] d.outline) = some true ∧
    (Document.parse "a.html" "<igx-tab><igx-tabs-group><ng-template igxTab/></igx-tabs-group></igx-tab>").toOption.map
      (fun d => decide ((headed firstFamily? [] d.outline).render = bytes
        "<igx-tab><igx-tabs-group><igx-bottom-nav-header></igx-bottom-nav-header></igx-tabs-group></igx-tab>" ∧
      headed firstFamily? [] d.outline ≠ headed nearestFamily? [] d.outline)) = some true := by
  repeat rw [bytes_ofList]
  decide +kernel

/-- A template in an item of the first family inside one of the second: the nearest is the first. -/
theorem headed_of_run_apart :
    ∃ d g d', Document.parse "a.html" "<igx-tabs-group><igx-tab><ng-template igxTab/></igx-tab></igx-tabs-group>" = .ok d ∧
      (run Memory.store [] ⟨["a.html"], [], []⟩ wrapping false (Memory.ofFiles [("a.html",
        "<igx-tabs-group><igx-tab><ng-template igxTab/></igx-tab></igx-tabs-group>")])).tree.file? "a.html" = some g ∧
      Document.parse "a.html" g.content = .ok d' ∧ apart [] d.outline = true ∧
      d'.outline = headed nearestFamily? [] d.outline := by
  have hcheck := nested_outlines.1
  generalize bytes "<igx-tabs-group><igx-tab><ng-template igxTab/></igx-tab></igx-tabs-group>" = text at hcheck ⊢
  cases hparse : Document.parse "a.html" text with
  | error e => rw [hparse] at hcheck; cases hcheck
  | ok d =>
    rw [hparse] at hcheck
    have hfiles : FileSet.Distinct ⟨["a.html"], [], []⟩ := ⟨by decide, by decide, by decide⟩
    obtain ⟨g, d', hg, hparse', -, hnearest⟩ := headed_of_run hfiles (Memory.ofFiles [("a.html", text)])
      (List.mem_singleton_self _) rfl hparse
    have hapart : apart [] d.outline = true := Option.some.inj hcheck
    exact ⟨d, g, d', rfl, hg, hparse', hapart, hnearest hapart⟩

/-- A tabs group in a tab of a bottom navigation: its template becomes a header of the navigation,
though the nearest item is the group. -/
theorem headed_of_run_nested :
    ∃ d g d', Document.parse "a.html" "<igx-tab><igx-tabs-group><ng-template igxTab/></igx-tabs-group></igx-tab>" = .ok d ∧
      (run Memory.store [] ⟨["a.html"], [], []⟩ wrapping false (Memory.ofFiles [("a.html",
        "<igx-tab><igx-tabs-group><ng-template igxTab/></igx-tabs-group></igx-tab>")])).tree.file? "a.html" = some g ∧
      Document.parse "a.html" g.content = .ok d' ∧ d'.outline ≠ headed nearestFamily? [] d.outline ∧
      g.content = bytes
        "<igx-tab><igx-tabs-group><igx-bottom-nav-header></igx-bottom-nav-header></igx-tabs-group></igx-tab>" := by
  have hcheck := nested_outlines.2
  generalize bytes "<igx-tab><igx-tabs-group><ng-template igxTab/></igx-tabs-group></igx-tab>" = text at hcheck ⊢
  cases hparse : Document.parse "a.html" text with
  | error e => rw [hparse] at hcheck; cases hcheck
  | ok d =>
    rw [hparse] at hcheck
    have hfiles : FileSet.Distinct ⟨["a.html"], [], []⟩ := ⟨by decide, by decide, by decide⟩
    obtain ⟨g, d', hg, hparse', houtline⟩ := exists_headed hfiles (Memory.ofFiles [("a.html", text)])
      (List.mem_singleton_self _) rfl hparse
    obtain ⟨hrender, hne⟩ := of_decide_eq_true (Option.some.inj hcheck)
    rw [← houtline] at hrender hne
    exact ⟨d, g, d', rfl, hg, hparse', hne, (render_outline_of_parse hparse').symm.trans hrender⟩

end Release12

end Codemod
