import Codemod.Proofs.Markup.Growth
import Codemod.Proofs.Release12.Reparse
import Codemod.Proofs.Text.Trim

namespace Codemod.Release12

open Edit Markup

theorem not_mem_of_isBlank {s : Bytes} (h : isBlank s = true) : 60 ∉ s :=
  Text.not_mem_of_trimBytes_eq_nil (List.isEmpty_iff.mp h)

section Tags

variable {a b : Element}

theorem hasAttribute_congr (h : a.keys = b.keys) (names : List Bytes) :
    a.hasAttribute names = b.hasAttribute names := by
  rw [Element.hasAttribute_eq, Element.hasAttribute_eq, h]

theorem newAlignment?_congr (h : a.keys = b.keys) : newAlignment? a = newAlignment? b := by
  have hbind (e : Element) : newAlignment? e = ((e.attribute? (attributeNames "type")).map Attribute.value).bind fun v =>
      if e.hasAttribute (attributeNames "tabAlignment") then none else alignment? (Text.lower (unquote v)) := by
    unfold newAlignment?
    cases e.attribute? (attributeNames "type") with
    | none => rfl
    | some type => cases e.hasAttribute (attributeNames "tabAlignment") <;> simp
  rw [hbind, hbind, Element.attribute?_value, Element.attribute?_value, hasAttribute_congr h, h]

theorem isTabTemplate_congr (hname : a.name = b.name) (h : a.keys = b.keys) : isTabTemplate a = isTabTemplate b := by
  rw [isTabTemplate, isTabTemplate, hasAttribute_congr h, Element.named, Element.named, hname]

theorem isTemplate_congr (editor : Editor) (hname : a.name = b.name) (h : a.keys = b.keys) :
    editor.isTemplate a = editor.isTemplate b := by
  rw [Editor.isTemplate, Editor.isTemplate, hasAttribute_congr h, Element.named, Element.named, hname]

/-- An item has something to show in a header. -/
def hasHeaderInput (e : Element) : Bool :=
  e.hasAttribute (attributeNames "icon") || e.hasAttribute (attributeNames "label") ||
    e.hasAttribute (attributeNames "routerLink")

theorem hasHeaderInput_congr (h : a.keys = b.keys) : hasHeaderInput a = hasHeaderInput b := by
  simp only [hasHeaderInput, hasAttribute_congr h]

theorem header?_eq_none_iff (f : Family) (e : Element) : header? f e = none ↔ hasHeaderInput e = false := by
  have hnone (names : List Bytes) : (e.attribute? names).isNone = !e.hasAttribute names := by
    rw [Element.attribute?, Element.hasAttribute, ← List.isSome_find?]
    cases e.attrs.find? _ <;> rfl
  unfold header? hasHeaderInput
  dsimp only
  rw [hnone, hnone, hnone]
  cases e.hasAttribute (attributeNames (bytes "icon")) <;> cases e.hasAttribute (attributeNames (bytes "label")) <;>
    cases e.hasAttribute (attributeNames (bytes "routerLink")) <;> simp

/-- A name and a value that are the removed mode of a picker. -/
def isDropdownKey (k : Bytes × Bytes) : Bool := (attributeNames "mode").contains k.1 && unquote k.2 = "dropdown"

theorem pickerDrops_eq_nil {e : Element} (hlabel : hasProjectedLabel e = true)
    (h : ∀ k ∈ e.keys, isDropdownKey k = false) : pickerDrops e = [] := by
  refine List.filter_eq_nil_iff.mpr fun a ha => ?_
  have hdrop : isDropdown a = false := h a.key (List.mem_map_of_mem ha)
  simp [hdrop, hlabel]

theorem keys_place (x : Spot) : x.place.element.keys = (Element.ofTag x.tag).keys := Source.keys_node ..

theorem name_place_ofTag (x : Spot) : x.place.element.name = (Element.ofTag x.tag).name :=
  (name_place x).trans (Source.name_node ..).symm

end Tags

/-- The start tag is that of an item. -/
def Family.Has (f : Family) (tag : Bytes) : Prop := startTagName tag ∈ f.tags.map bytes

def isHeaderTag (f : Family) (tag : Bytes) : Bool := startTagName tag = bytes f.headerTag

def isLabelTag (tag : Bytes) : Bool := (Element.ofTag tag).hasAttribute ["igxLabel"]

/-- The text behind a header needs no panel. -/
def NeedsNoPanel (f : Family) (body : Bytes) : Prop := bytes f.panelTag <:+: body ∨ isBlank body = true

/-- The templates of an editor inside its pickers have the warning in front of them; `before` is
the text in front of the tree, and `inside` tells whether the tree stands in a picker. -/
def Warned (editor : Editor) (inside : Bool) (before : Bytes) : Source → Prop
  | .nil => True
  | .gap g next => Warned editor inside (before ++ g.raw) next
  | .element tag _ inner close next =>
    (inside = true → editor.isTemplate (Element.ofTag tag) = true → editor.templateWarning <:+ before) ∧
      Warned editor (inside || startTagName tag = bytes editor.component) (before ++ tag) inner ∧
      Warned editor inside (before ++ (tag ++ (render inner.pieces ++ close.getD []))) next

/-- Nothing in a tree is left to do for a rule. -/
def TemplateRule.Done : TemplateRule → Source → Prop
  | alignment, s => s.Every fun tag _ _ =>
      startTagName tag = bytes tabs.component → newAlignment? (Element.ofTag tag) = none
  | wrap f, s => s.Every fun tag inner _ =>
      f.Has tag → inner.Every fun t _ _ => isTabTemplate (Element.ofTag t) = false
  | headers f, s => s.Every fun tag inner _ =>
      f.Has tag → inner.anyChild (isHeaderTag f) = true ∨ hasHeaderInput (Element.ofTag tag) = false
  | panels f, s => s.Every fun tag inner close =>
      f.Has tag → close.isSome → ∀ body, inner.after? f.headerTag = some body → NeedsNoPanel f (render body.pieces)
  | review _, _ => True
  | inputs editor, s => (s.Every fun tag inner _ => startTagName tag = bytes editor.component →
      inner.anyChild isLabelTag = true ∧ ∀ k ∈ (Element.ofTag tag).keys, isDropdownKey k = false) ∧
      Warned editor false [] s

section Quiet

variable {d : Document} {s : Source}

/-- The elements that a document has are those of the tree it was read from. -/
theorem Reading.exists_spot (hs : Reading d s) {P : Bytes → Source → Option Bytes → Prop} (h : s.Every P)
    {place : Place} (hplace : place ∈ d.places) :
    ∃ x : Spot, x.place = place ∧ x.In d.content ∧ P x.tag x.inner x.close := by
  have hin : s.Each (Spot.In · d.content) [] 0 := hs.wellFormed.each fun x hx _ => hs.content ▸ hx
  have hboth := hin.and (Source.each_of_every h [] 0)
  rw [Document.places, ← hs.roots] at hplace
  exact hboth.exists_spot hplace

theorem flatMap_find_eq_nil {select : Element → Bool} {edits : Element → List Change}
    (h : ∀ place ∈ d.places, select place.element = true → edits place.element = []) :
    (d.find select).flatMap edits = [] := by
  rw [flatMap_find]
  refine List.flatMap_eq_nil_iff.mpr fun place hplace => ?_
  split
  · next hselect => exact h place hplace hselect
  · rfl

theorem alignTabs_eq_nil (hs : Reading d s) (h : TemplateRule.alignment.Done s) : alignTabs d = [] := by
  rw [alignTabs_eq]
  refine flatMap_find_eq_nil fun place hplace hnamed => ?_
  obtain ⟨x, rfl, -, hx⟩ := hs.exists_spot h hplace
  have hname : x.name = bytes tabs.component := List.mem_singleton.mp (name_of_named hnamed)
  rw [newAlignment?_congr (keys_place x), hx hname]
  rfl

theorem wrapTemplates_eq_nil (hs : Reading d s) {f : Family} (h : (TemplateRule.wrap f).Done s) :
    wrapTemplates f d = [] := by
  have hnone : (d.find f.isItem).flatMap (·.descendants isTabTemplate) = [] := by
    refine List.flatMap_eq_nil_iff.mpr fun e he => ?_
    obtain ⟨hmem, hitem⟩ := List.mem_filter.mp he
    obtain ⟨place, hplace, rfl⟩ := List.mem_map.mp hmem
    obtain ⟨x, rfl, -, hx⟩ := hs.exists_spot h hplace
    refine List.filter_eq_nil_iff.mpr fun e he => ?_
    obtain ⟨place, hplace, rfl⟩ := List.mem_map.mp he
    have hinner := Source.each_of_every (hx (name_of_named hitem)) [] (x.pos + x.tag.length)
    obtain ⟨y, rfl, hy⟩ := hinner.exists_spot hplace
    rw [isTabTemplate_congr (name_place_ofTag y) (keys_place y), hy]
    simp
  rw [wrapTemplates, hnone]
  rfl

theorem firstChild?_isSome (x : Spot) {select : Element → Bool} {kind : Bytes → Bool}
    (h : ∀ p tag selfClosing inner close, select (Source.node p tag selfClosing inner close) = kind tag) :
    (firstChild? x.place.element select).isSome = x.inner.anyChild kind := by
  rw [firstChild?, List.isSome_find?]
  exact Source.any_build h _

theorem hasProjectedLabel_place (x : Spot) : hasProjectedLabel x.place.element = x.inner.anyChild isLabelTag :=
  firstChild?_isSome x fun _ _ _ _ _ => hasAttribute_congr (Source.keys_node ..) _

theorem named_node (name : Bytes) (p : Nat) (tag : Bytes) (selfClosing : Bool) (inner : Source) (close : Option Bytes) :
    (Source.node p tag selfClosing inner close).named [name] = decide (startTagName tag = name) := by
  rw [Element.named, Source.name_node, List.contains_cons, List.contains_nil, Bool.or_false, beq_eq_decide]

theorem addHeaders_eq_nil (hs : Reading d s) {f : Family} (h : (TemplateRule.headers f).Done s) :
    addHeaders f d = [] := by
  rw [addHeaders_eq]
  refine flatMap_find_eq_nil fun place hplace hitem => ?_
  obtain ⟨x, rfl, -, hx⟩ := hs.exists_spot h hplace
  have hnone : newHeader? f x.place.element = none := by
    have hchild : (firstChild? x.place.element f.isHeader).isSome = x.inner.anyChild (isHeaderTag f) :=
      firstChild?_isSome x (named_node f.headerTag)
    rw [newHeader?, hchild]
    rcases hx (name_of_named hitem) with hany | hinput
    · rw [if_pos hany]
    · rw [← hasHeaderInput_congr (keys_place x)] at hinput
      rw [(header?_eq_none_iff f _).mpr hinput, ite_self]
  rw [hnone]
  rfl

theorem after?_of_headerStop? {name : Bytes} {p q : Nat} (h : s.headerStop? name p = some q) :
    ∃ body, s.after? name = some body := by
  induction s generalizing p with
  | nil => cases h
  | gap g next ih => exact ih h
  | element tag selfClosing inner close next _ ih =>
    rw [Source.headerStop?] at h
    rw [Source.after?]
    split at h
    · next hname => exact ⟨next, if_pos hname⟩
    · next hname =>
      obtain ⟨body, hbody⟩ := ih h
      exact ⟨body, (if_neg hname).trans hbody⟩

/-- The text behind the header of an item. -/
theorem text_body? {x : Spot} (hx : x.In d.content) {f : Family} {body : Span}
    (h : body? f x.place.element = some body) :
    x.close.isSome ∧ ∃ rest, x.inner.after? f.headerTag = some rest ∧ d.text body = render rest.pieces := by
  rw [body?_place] at h
  obtain ⟨q, hq, h⟩ := Option.bind_eq_some_iff.mp h
  obtain ⟨c, hc, rfl⟩ := Option.map_eq_some_iff.mp h
  obtain ⟨rest, hrest⟩ := after?_of_headerStop? hq
  obtain ⟨front, hfront, hstop⟩ := Source.render_after? hrest
  obtain rfl := Option.some.inj (hq.symm.trans (hstop _))
  refine ⟨by rw [hc]; rfl, rest, hrest, ?_⟩
  obtain ⟨pre, post, hpre, hcontent⟩ := hx.split
  have hself := slice_self (pre ++ (x.tag ++ front)) (render rest.pieces) (x.close.getD [] ++ post)
  have hall : pre ++ (x.tag ++ front) ++ render rest.pieces ++ (x.close.getD [] ++ post) = d.content := by
    rw [hcontent, hfront]
    simp
  have hstart : (pre ++ (x.tag ++ front)).length = x.pos + x.tag.length + front.length := by
    rw [← hpre]
    simp [Nat.add_assoc]
  have hstop : x.pos + x.tag.length + front.length + (render rest.pieces).length = x.closePos := by
    have hlen := congrArg List.length hfront
    rw [List.length_append, Source.length_render] at hlen
    rw [Spot.closePos, hlen, Nat.add_assoc, Nat.add_assoc]
  rw [hall, hstart, hstop] at hself
  exact hself

theorem addPanels_eq_nil (hs : Reading d s) {f : Family} (h : (TemplateRule.panels f).Done s) :
    addPanels f d = [] := by
  rw [addPanels_eq]
  refine flatMap_find_eq_nil fun place hplace hitem => ?_
  obtain ⟨x, rfl, hin, hx⟩ := hs.exists_spot h hplace
  unfold panelEdits newPanel?
  cases hbody : body? f x.place.element with
  | none => rfl
  | some body =>
    obtain ⟨hclose, rest, hrest, htext⟩ := text_body? hin hbody
    have hnone : ((d.text body).contains f.panelTag || isBlank (d.text body)) = true := by
      rw [htext, Bool.or_eq_true, contains_iff]
      exact hx (name_of_named hitem) hclose rest hrest
    rw [Option.bind_some, if_pos hnone]
    rfl

/-- The warning stands in front of every template that gets one. -/
theorem Warned.each {editor : Editor} {content : Bytes} {inside : Bool} {before post : Bytes} {above : List Element}
    (h : Warned editor inside before s) (hinside : inside = above.any (Element.named [bytes editor.component]))
    (hcontent : content = before ++ (render s.pieces ++ post)) :
    s.Each (fun x => x.above.any (Element.named [bytes editor.component]) = true →
      editor.isTemplate x.element = true → editor.templateWarning <:+ content.take x.pos) above before.length := by
  induction s generalizing inside before post above with
  | nil => trivial
  | gap g next ih =>
    have hrest : content = (before ++ g.raw) ++ (render next.pieces ++ post) := by
      rw [hcontent, Source.pieces, render_cons, Source.render_piece]
      simp
    have hnext := ih h hinside hrest
    rw [List.length_append] at hnext
    exact hnext
  | element tag selfClosing inner close next ih1 ih2 =>
    obtain ⟨h, h1, h2⟩ := h
    rw [Source.render_element] at hcontent
    have hinner : content = (before ++ tag) ++ (render inner.pieces ++ (close.getD [] ++ (render next.pieces ++ post))) := by
      rw [hcontent]
      simp
    have hrest : content = (before ++ (tag ++ (render inner.pieces ++ close.getD []))) ++ (render next.pieces ++ post) := by
      rw [hcontent]
      simp
    have hinside' : (inside || decide (startTagName tag = bytes editor.component)) =
        (Source.node before.length tag selfClosing inner close :: above).any
          (Element.named [bytes editor.component]) := by
      rw [List.any_cons, named_node, hinside, Bool.or_comm]
    have g1 := ih1 h1 hinside' hinner
    have g2 := ih2 h2 hinside hrest
    rw [List.length_append] at g1
    have hlen : (before ++ (tag ++ (render inner.pieces ++ close.getD []))).length =
        before.length + tag.length + inner.size + (close.getD []).length := by
      simp [Source.length_render, Nat.add_assoc]
    rw [hlen] at g2
    refine ⟨fun habove htemplate => ?_, g1, g2⟩
    rw [hcontent, List.take_left]
    refine h (hinside.trans habove) ?_
    have hspot := isTemplate_congr editor (name_place_ofTag ⟨before.length, above, tag, selfClosing, inner, close⟩)
      (keys_place ⟨before.length, above, tag, selfClosing, inner, close⟩)
    exact hspot.symm.trans htemplate

theorem Warned.needsWarning {editor : Editor} (hs : Reading d s) (h : Warned editor false [] s) {place : Place}
    (hplace : place ∈ d.places) : needsWarning editor d place = false := by
  have hcontent : d.content = [] ++ (render s.pieces ++ []) := by
    rw [hs.content, List.append_nil]
    rfl
  have heach := h.each (List.any_nil (f := Element.named [bytes editor.component])).symm hcontent
  rw [Document.places, ← hs.roots] at hplace
  obtain ⟨x, rfl, hx⟩ := heach.exists_spot hplace
  rw [Bool.eq_false_iff]
  intro hneeds
  simp only [Release12.needsWarning, Bool.and_eq_true, Bool.not_eq_true'] at hneeds
  obtain ⟨⟨htemplate, habove⟩, hnot⟩ := hneeds
  have hwarning := hx habove htemplate
  have hsuffix : precededBy d x.place.element.startTag.start editor.templateWarning = true :=
    List.isSuffixOf_iff_suffix.mpr hwarning
  rw [hsuffix] at hnot
  cases hnot

theorem migrateEditors_eq_nil (hs : Reading d s) {editor : Editor} (h : (TemplateRule.inputs editor).Done s) :
    migrateEditors editor d = [] := by
  obtain ⟨hpickers, hwarned⟩ := h
  refine List.append_eq_nil_iff.mpr ⟨flatMap_find_eq_nil fun place hplace hnamed => ?_, ?_⟩
  · obtain ⟨x, rfl, -, hx⟩ := hs.exists_spot hpickers hplace
    obtain ⟨hlabel, hdrop⟩ := hx (List.mem_singleton.mp (name_of_named hnamed))
    have hprojected : hasProjectedLabel x.place.element = true := (hasProjectedLabel_place x).trans hlabel
    have hperm := editorInputs_perm editor d x.place.element
    rw [pickerEdits, hprojected, pickerDrops_eq_nil hprojected (by rw [keys_place]; exact hdrop)] at hperm
    exact hperm.eq_nil
  · have hperm := warnings_perm hs editor
    have hnone : (d.places.flatMap fun place => if needsWarning editor d place then
        [Change.insert place.element.startTag.start editor.templateWarning] else []) = [] := by
      refine List.flatMap_eq_nil_iff.mpr fun place hplace => ?_
      rw [hwarned.needsWarning hs hplace]
      rfl
    rw [hnone] at hperm
    exact hperm.eq_nil

/-- A rule that has nothing left to do asks for no edit. -/
theorem TemplateRule.Done.edits_eq_nil {r : TemplateRule} (hs : Reading d s) (h : r.Done s) :
    r.edits d false = [] := by
  cases r with
  | alignment => exact alignTabs_eq_nil hs h
  | wrap f => exact wrapTemplates_eq_nil hs h
  | headers f => exact addHeaders_eq_nil hs h
  | panels f => exact addPanels_eq_nil hs h
  | review f => rfl
  | inputs editor => exact migrateEditors_eq_nil hs h

end Quiet

end Codemod.Release12
