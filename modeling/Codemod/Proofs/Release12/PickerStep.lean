import Codemod.Proofs.Release12.TabSteps

namespace Codemod.Release12

open Edit Markup

section Inputs

variable {d : Document} {s : Source} {editor : Editor} {x : Spot}

/-- The start tag of a projected label. -/
def projectedOpening (visible : Option Attribute) : Bytes :=
  .concat ["<label igxLabel", visible.elim [] fun a => .concat [" *ngIf=\"", a.value, "\""], ">"]

/-- The texts of the labels that a picker gets. -/
def projectedTexts (editor : Editor) (e : Element) : List Bytes :=
  match e.attributes (attributeNames "label") with
  | [] => [editor.defaultLabel]
  | labels => labels.map Attribute.interpolated

/-- The labels of a picker as a tree, if their values are read as they are meant. -/
def projectedSource (editor : Editor) (e : Element) : Source :=
  (projectedTexts editor e).foldr (fun text next => .gap (.text [10])
    (.tagged (projectedOpening (e.attribute? (attributeNames "labelVisibility"))) "label" (.gap (.text text) .nil) next))
    .nil

theorem projectedLabel_eq_append (visible : Option Attribute) (text : Bytes) :
    projectedLabel visible text = 10 :: (projectedOpening visible ++ (text ++ closeTag "label")) := by
  simp [projectedLabel, projectedOpening, closeTag, Bytes.concat]
  rfl

theorem labelText_eq_flatMap (editor : Editor) (e : Element) : labelText editor e =
    (projectedTexts editor e).flatMap (projectedLabel (e.attribute? (attributeNames "labelVisibility"))) := by
  unfold labelText projectedTexts
  cases e.attributes (attributeNames (bytes "label")) with
  | nil => simp
  | cons a labels => simp [List.flatMap_map]

theorem render_projectedSource (editor : Editor) (e : Element) :
    render (projectedSource editor e).pieces = labelText editor e := by
  rw [labelText_eq_flatMap, projectedSource]
  induction projectedTexts editor e with
  | nil => rfl
  | cons text texts ih =>
    rw [List.foldr_cons, List.flatMap_cons, ← ih, projectedLabel_eq_append]
    simp [Source.pieces, Source.render_tagged, Gap.piece, Piece.raw]

/-- The start tag of a picker after its edits. -/
def pickerTag (d : Document) (e : Element) : Bytes :=
  if hasProjectedLabel e then (tagEdits d.content e (pickerDrops e) none e.startTag.stop).target
  else Patch.filledTag (tagEdits d.content e (pickerDrops e) (pickerMode? e) (openStop e)) e.selfClosing

/-- The attributes that a picker should have after its edits. -/
def pickerKeys (e : Element) : List (Bytes × Bytes) :=
  (e.attrs.filter fun a => !(isDropdown a || (!hasProjectedLabel e && isLabel a))).map Attribute.key ++
    if !hasProjectedLabel e && (e.attributes (attributeNames "mode")).isEmpty then [(bytes "mode", bytes "dialog")] else []

/-- The edits of a picker are read as they are meant. -/
structure PlainPicker (d : Document) (e : Element) : Prop where
  tag : WholeTag (pickerTag d e) e.name (hasProjectedLabel e && e.selfClosing)
  keys : (Element.ofTag (pickerTag d e)).keys = pickerKeys e
  opening : hasProjectedLabel e = false →
    WholeTag (projectedOpening (e.attribute? (attributeNames "labelVisibility"))) "label" false
  texts : hasProjectedLabel e = false →
    ∀ a ∈ e.attributes (attributeNames "label"), calm a.interpolated = true
  comment : ¬bytes "<!--" <:+: d.text e.startTag

theorem calm_projectedTexts (heditor : editor ∈ editors) {e : Element}
    (h : ∀ a ∈ e.attributes (attributeNames "label"), calm a.interpolated = true) :
    ∀ text ∈ projectedTexts editor e, calm text = true := by
  have hdefault : ∀ editor ∈ editors, calm editor.defaultLabel = true := by decide
  unfold projectedTexts
  split
  · intro text htext
    rw [List.mem_singleton.mp htext]
    exact hdefault editor heditor
  · intro text htext
    obtain ⟨a, ha, rfl⟩ := List.mem_map.mp htext
    exact h a ha

theorem label_plain : Ordinary (bytes "label") ∧ TagName (bytes "label") :=
  ⟨⟨by decide, by decide, by decide, by decide⟩, by decide, by decide⟩

theorem standalone_projectedSource {e : Element}
    (hopening : WholeTag (projectedOpening (e.attribute? (attributeNames "labelVisibility"))) "label" false)
    (htexts : ∀ text ∈ projectedTexts editor e, calm text = true) : (projectedSource editor e).Standalone := by
  unfold projectedSource
  generalize projectedTexts editor e = texts at htexts
  induction texts with
  | nil => exact Source.standalone_nil
  | cons text texts ih =>
    obtain ⟨htext, hrest⟩ := List.forall_mem_cons.mp htexts
    exact Source.standalone_break hopening label_plain.1 label_plain.2 (Source.filling_text htext) (ih hrest)

theorem every_projectedSource {e : Element}
    (hopening : WholeTag (projectedOpening (e.attribute? (attributeNames "labelVisibility"))) "label" false) :
    (projectedSource editor e).Every fun t _ _ => startTagName t = bytes "label" := by
  unfold projectedSource
  induction projectedTexts editor e with
  | nil => trivial
  | cons text texts ih => exact ⟨hopening.name, trivial, ih⟩

/-- A projected label has the directive, whatever its condition is. -/
theorem isLabelTag_projectedOpening (visible : Option Attribute) : isLabelTag (projectedOpening visible) = true := by
  obtain ⟨tail, htail, hend⟩ : ∃ tail, projectedOpening visible = bytes "<label igxLabel" ++ tail ∧
      ∀ b ∈ tail.head?, isKeyEnd b = true := by
    cases visible with
    | none => exact ⟨bytes ">", rfl, fun b hb => by cases hb; rfl⟩
    | some a => exact ⟨_, rfl, fun b hb => by cases hb; rfl⟩
  have hattrs : (Element.ofTag (projectedOpening visible)).attrs =
      Attribute.scanAll ⟨6, bytes " igxLabel" ++ tail⟩ := by
    rw [htail]
    rfl
  have hskip : Cursor.skip isBreak ⟨6, bytes " igxLabel" ++ tail⟩ = ⟨7, bytes "igxLabel" ++ tail⟩ := rfl
  rcases Attribute.scanAll_cases ⟨6, bytes " igxLabel" ++ tail⟩ with ⟨-, hlast⟩ | ⟨x, r, -, -, hall⟩
  · exact absurd (hlast 105 (by rw [hskip]; rfl)) (by decide)
  · have hstop : tail.takeWhile (!isKeyEnd ·) = [] := by
      cases tail with
      | nil => rfl
      | cons b tail => rw [List.takeWhile_cons, hend b rfl]; rfl
    have hname : (Attribute.scan ⟨7, bytes "igxLabel" ++ tail⟩).1.name = bytes "igxLabel" := by
      have hkey : ∀ b ∈ bytes "gxLabel", (!isKeyEnd b) = true := List.all_eq_true.mp (by decide)
      have hrest : (⟨7, bytes "igxLabel" ++ tail⟩ : Cursor).rest = 105 :: (bytes "gxLabel" ++ tail) := rfl
      rw [Attribute.scan_name hrest, List.takeWhile_append_of_pos hkey, hstop]
      rfl
    rw [hskip] at hall
    rw [isLabelTag, Element.hasAttribute, hattrs, hall, List.any_cons, hname]
    rfl

theorem anyChild_projectedSource (editor : Editor) (e : Element) :
    (projectedSource editor e).anyChild isLabelTag = true := by
  have hne : projectedTexts editor e ≠ [] := by
    unfold projectedTexts
    split
    · exact List.cons_ne_nil _ _
    · next hlabels => simpa using hlabels
  unfold projectedSource
  cases htexts : projectedTexts editor e with
  | nil => exact absurd htexts hne
  | cons text texts =>
    rw [List.foldr_cons, Source.anyChild, Source.tagged, Source.anyChild, isLabelTag_projectedOpening, Bool.true_or]

theorem not_isDropdownKey {e : Element} : ∀ k ∈ pickerKeys e, isDropdownKey k = false := by
  intro k hk
  rcases List.mem_append.mp hk with hk | hk
  · obtain ⟨a, ha, rfl⟩ := List.mem_map.mp hk
    have hkept := (List.mem_filter.mp ha).2
    rw [Bool.not_eq_true', Bool.or_eq_false_iff] at hkept
    exact hkept.1
  · split at hk
    · rw [List.mem_singleton.mp hk]
      decide
    · cases hk

/-- An attribute that is no input of a picker stays. -/
theorem mem_pickerKeys {e : Element} {a : Attribute} (ha : a ∈ e.attrs) (hdrop : isDropdown a = false)
    (hlabel : hasProjectedLabel e = true ∨ isLabel a = false) : a.key ∈ pickerKeys e := by
  refine List.mem_append_left _ (List.mem_map_of_mem (List.mem_filter.mpr ⟨ha, ?_⟩))
  rcases hlabel with hlabel | hlabel <;> simp [hdrop, hlabel]

theorem isLabelTag_pickerTag (h : PlainPicker d x.place.element) (hlabel : isLabelTag x.tag = true) :
    isLabelTag (pickerTag d x.place.element) = true := by
  rw [isLabelTag, ← hasAttribute_congr (keys_place x)] at hlabel
  obtain ⟨a, ha, hname⟩ := List.any_eq_true.mp hlabel
  have hname : a.name = bytes "igxLabel" := List.mem_singleton.mp (List.elem_iff.mp hname)
  have hinputs : (attributeNames (bytes "mode")).contains (bytes "igxLabel") = false ∧
      (attributeNames (bytes "label")).contains (bytes "igxLabel") = false := by decide
  have hdrop : isDropdown a = false := by rw [isDropdown, hname, hinputs.1, Bool.false_and]
  have hnot : isLabel a = false := by rw [isLabel, hname, hinputs.2]
  have hkey : a.key ∈ (Element.ofTag (pickerTag d x.place.element)).keys := by
    rw [h.keys]
    exact mem_pickerKeys ha hdrop (Or.inr hnot)
  rw [isLabelTag, Element.hasAttribute_eq]
  refine List.any_eq_true.mpr ⟨a.key, hkey, ?_⟩
  rw [Attribute.key, hname]
  rfl

theorem infix_unquote {w value : Bytes} (hw : Word w) (h : w <:+: value) : w <:+: unquote value := by
  have hsame : w.filter (!isQuote ·) = w := List.filter_eq_self.mpr fun b hb => by rw [(hw.plain b hb).2.1]; rfl
  have hfilter := h.filter (!isQuote ·)
  rwa [hsame] at hfilter

theorem infix_labelText {e : Element} {a : Attribute} (ha : a ∈ e.attrs) (hlabel : isLabel a = true) {w : Bytes}
    (h : w <:+: a.value) : w <:+: labelText editor e := by
  have hmem : a ∈ e.attributes (attributeNames "label") := List.mem_filter.mpr ⟨ha, hlabel⟩
  have hvalue : w <:+: a.interpolated := by
    unfold Attribute.interpolated
    split
    · exact h.trans (List.infix_append _ _ _)
    · exact h
  have htext : a.interpolated ∈ projectedTexts editor e := by
    unfold projectedTexts
    split
    · next hnone =>
      rw [hnone] at hmem
      cases hmem
    · exact List.mem_map_of_mem hmem
  obtain ⟨front, back, hsplit⟩ := List.append_of_mem htext
  rw [labelText_eq_flatMap, hsplit, List.flatMap_append, List.flatMap_cons, projectedLabel_eq_append]
  generalize e.attribute? (attributeNames (bytes "labelVisibility")) = visible
  exact infix_within hvalue (front.flatMap (projectedLabel visible) ++ 10 :: projectedOpening visible)
    (closeTag "label" ++ back.flatMap (projectedLabel visible)) (by simp)

/-- The texts in which no panel is mentioned. -/
def pickerWords : List Bytes :=
  (editors.map fun editor => bytes editor.component) ++ [bytes "dropdown"] ++ attributeNames "mode" ++
    attributeNames "label"

theorem not_infix_of_mem_pickerWords {f : Family} (hf : f ∈ families) {text : Bytes} (h : text ∈ pickerWords) :
    ¬bytes f.panelTag <:+: text := by
  have hwords : ∀ f ∈ families, ∀ text ∈ pickerWords, Bytes.contains text f.panelTag = false := by decide +kernel
  intro hin
  rw [← contains_iff, hwords f hf text h] at hin
  cases hin

/-- What an edited picker mentioned, it mentions in an attribute or in a label. -/
theorem mention_pickerTag (hx : x.In d.content) (h : PlainPicker d x.place.element)
    (hname : x.name = bytes editor.component) (heditor : editor ∈ editors) {f : Family} (hf : f ∈ families)
    (hmention : bytes f.panelTag <:+: x.tag) {first : Source}
    (hfirst : hasProjectedLabel x.place.element = true ∨ first = projectedSource editor x.place.element) :
    bytes f.panelTag <:+: pickerTag d x.place.element ++ render first.pieces := by
  have hword := TemplateRule.panelTag_word hf
  have hmode {name : Bytes} (hmem : name ∈ attributeNames (bytes "mode")) : name ∈ pickerWords := by
    simp [pickerWords, hmem]
  have hlabels {name : Bytes} (hmem : name ∈ attributeNames (bytes "label")) : name ∈ pickerWords := by
    simp [pickerWords, hmem]
  rcases hword.infix_tag hx.start hmention with hin | ⟨k, hk, hin⟩
  · have hcomponent : startTagName x.tag ∈ pickerWords := by
      rw [show startTagName x.tag = bytes editor.component from hname]
      simp only [pickerWords, List.mem_append, List.mem_map]
      exact Or.inl (Or.inl (Or.inl ⟨editor, heditor, rfl⟩))
    exact absurd hin (not_infix_of_mem_pickerWords hf hcomponent)
  · rw [← keys_place] at hk
    obtain ⟨a, ha, rfl⟩ := List.mem_map.mp hk
    by_cases hdrop : isDropdown a = true
    · obtain ⟨hmem, hvalue⟩ := Bool.and_eq_true_iff.mp hdrop
      rcases hin with hin | hin
      · exact absurd hin (not_infix_of_mem_pickerWords hf (hmode (List.elem_iff.mp hmem)))
      · have hdropdown := infix_unquote hword hin
        rw [show unquote a.key.2 = bytes "dropdown" from of_decide_eq_true hvalue] at hdropdown
        exact absurd hdropdown (not_infix_of_mem_pickerWords hf (by simp [pickerWords]))
    · by_cases hkept : hasProjectedLabel x.place.element = true ∨ isLabel a = false
      · have hkey : a.key ∈ (Element.ofTag (pickerTag d x.place.element)).keys := by
          rw [h.keys]
          exact mem_pickerKeys ha (by simpa using hdrop) hkept
        obtain ⟨hkey₁, hkey₂⟩ := infix_of_mem_keys hkey
        have hpart : bytes f.panelTag <:+: pickerTag d x.place.element :=
          hin.elim (fun hin => hin.trans hkey₁) fun hin => hin.trans hkey₂
        exact hpart.trans (List.prefix_append _ _).isInfix
      · rw [not_or, Bool.not_eq_false] at hkept
        rcases hin with hin | hin
        · exact absurd hin (not_infix_of_mem_pickerWords hf (hlabels (List.elem_iff.mp hkept.2)))
        · rw [hfirst.resolve_left hkept.1, render_projectedSource]
          exact (infix_labelText ha hkept.2 hin).trans (List.suffix_append _ _).isInfix

/-- The warnings of an editor do not come between other templates and theirs. -/
def WarnsAlone (editor : Editor) (d : Document) : Prop :=
  ∀ place ∈ d.places, needsWarning editor d place = true → ∀ other ∈ editors,
    other.isTemplate place.element = true → place.ancestors.any (Element.named [bytes other.component]) = true →
      other = editor

/-- The plan of an editor for one of its pickers. -/
theorem editorPlan_picker (h : x.place.element.named [bytes editor.component] = true) :
    editorPlan editor d (projectedSource editor) x.place =
      if hasProjectedLabel x.place.element then .retag (tagEdits d.content x.place.element
        (pickerDrops x.place.element) none x.place.element.startTag.stop)
      else .fill (tagEdits d.content x.place.element (pickerDrops x.place.element) (pickerMode? x.place.element)
        (openStop x.place.element)) (projectedSource editor x.place.element) := by
  unfold editorPlan
  dsimp only
  rw [if_pos h]

theorem inputs_sound (heditor : editor ∈ editors)
    (hplain : x.place.element.named [bytes editor.component] = true → PlainPicker d x.place.element) :
    (editorPlan editor d (projectedSource editor) x.place).Sound x := by
  refine editorPlan_sound heditor fun hnamed => ?_
  have hpicker := hplain hnamed
  have htag := hpicker.tag
  rw [name_place, pickerTag] at htag
  dsimp only
  split
  · next hlabel =>
    rw [if_pos hlabel, hlabel, Bool.true_and] at htag
    exact htag
  · next hlabel =>
    rw [Bool.not_eq_true] at hlabel
    rw [hlabel, Bool.false_and, if_neg (by simp)] at htag
    exact ⟨htag, standalone_projectedSource (hpicker.opening hlabel)
      (calm_projectedTexts heditor (hpicker.texts hlabel))⟩

theorem inputs_allowed (heditor : editor ∈ editors) (hx : x.In d.content)
    (hplain : x.place.element.named [bytes editor.component] = true → PlainPicker d x.place.element) :
    (editorPlan editor d (projectedSource editor) x.place).Allowed (TemplateRule.inputs editor).growth x := by
  by_cases hnamed : x.place.element.named [bytes editor.component] = true
  · have hpicker := hplain hnamed
    have hname : x.name = bytes editor.component := List.mem_singleton.mp (name_of_named hnamed)
    rw [editorPlan_picker hnamed]
    have htag : pickerTag d x.place.element = if hasProjectedLabel x.place.element then _ else _ := rfl
    have hlabelled := isLabelTag_pickerTag hpicker
    have hmention {first : Source}
        (hfirst : hasProjectedLabel x.place.element = true ∨ first = projectedSource editor x.place.element)
        (f : Family) (hf : f ∈ families) (hin : bytes f.panelTag <:+: x.tag) :=
      mention_pickerTag hx hpicker hname heditor hf hin hfirst
    rw [htag] at hlabelled hmention
    split
    · next hlabel =>
      simp only [if_pos hlabel] at hlabelled hmention
      exact ⟨List.mem_singleton.mpr hname, hlabelled, hmention (Or.inl hlabel)⟩
    · next hlabel =>
      simp only [if_neg hlabel] at hlabelled hmention
      refine ⟨⟨List.mem_singleton.mpr hname, hlabelled, hmention (Or.inr rfl)⟩, ?_⟩
      refine (every_projectedSource (hpicker.opening (by simpa using hlabel))).imp fun t _ _ ht => ?_
      exact List.mem_singleton.mpr ht
  · unfold editorPlan
    dsimp only
    rw [if_neg hnamed]
    split <;> trivial

/-- The gaps that a warning is read as. -/
theorem gapText_warning (heditor : editor ∈ editors) :
    gapText (.text [10] :: noteGaps (editor.templateWarning.drop 1)) = editor.templateWarning := by
  obtain ⟨hbreak, hnote⟩ := warning_spec heditor
  rw [hbreak]
  exact congrArg (10 :: ·) hnote.gapText

/-- The edits of an editor leave the warnings of all editors where they were, and give each of its own
templates one. -/
theorem warned_inputs (hs : Reading d s) (heditor : editor ∈ editors)
    (hplain : ∀ e ∈ d.find (Element.named [bytes editor.component]), PlainPicker d e) (halone : WarnsAlone editor d)
    {other : Editor} (hother : other ∈ editors) (h : other = editor ∨ Warned other false [] s) :
    Warned other false [] (s.patch (editorPlan editor d (projectedSource editor)) [] 0) := by
  have hpicker (x : Spot) (hplace : x.place ∈ d.places)
      (hnamed : x.place.element.named [bytes editor.component] = true) := hplain _ (mem_find hplace hnamed)
  have hin : s.Each (Spot.In · d.content) [] 0 := hs.each fun x hx _ => hx
  have hsound : s.Each (fun x => (editorPlan editor d (projectedSource editor) x.place).Sound x) [] 0 :=
    hs.each fun x _ hplace => inputs_sound heditor (hpicker x hplace)
  have hcontent : d.content = [] ++ (render s.pieces ++ []) := by rw [hs.content, List.append_nil, List.nil_append]
  refine (warned_patch (warning_brackets hother) rfl hcontent hin hsound (hs.each fun x hx hplace => ?_)
    (List.any_nil (f := Element.named [bytes other.component])).symm fun _ _ hend => hend).1
  have htag : other.isTemplate x.place.element = other.isTemplate (Element.ofTag x.tag) :=
    isTemplate_congr other (name_place_ofTag x) (keys_place x)
  unfold editorPlan
  dsimp only
  split
  · next hnamed =>
    have hname : x.name = bytes editor.component := List.mem_singleton.mp (name_of_named hnamed)
    have hne : x.name ≠ bytes "ng-template" := by
      rw [hname]
      exact (editor_ordinary heditor).2
    have hcomment : ¬bytes "<!--" <:+: x.tag := by
      have hcomment := (hpicker x hplace hnamed).comment
      rwa [text_startTag hx] at hcomment
    split
    · exact ⟨hne, hcomment⟩
    · next hlabel =>
      have hopening := (hpicker x hplace hnamed).opening (by simpa using hlabel)
      exact ⟨hne, hcomment, (every_projectedSource hopening).imp fun t _ _ ht => by rw [ht]; decide⟩
  · split
    · next hneeds =>
      intro habove htemplate
      rw [gapText_warning heditor, halone x.place hplace hneeds other hother (htag.trans htemplate) habove]
    · next hneeds =>
      intro habove htemplate
      rcases h with rfl | h
      · rw [Bool.not_eq_true, needsWarning, htag, htemplate, show x.place.ancestors = x.above from rfl, habove,
          Bool.true_and, Bool.true_and, Bool.not_eq_false'] at hneeds
        exact List.isSuffixOf_iff_suffix.mp hneeds
      · have hnot := h.needsWarning hs hplace
        rw [needsWarning, htag, htemplate, show x.place.ancestors = x.above from rfl, habove, Bool.true_and,
          Bool.true_and, Bool.not_eq_false'] at hnot
        exact List.isSuffixOf_iff_suffix.mp hnot

theorem inputs_step (hs : Reading d s) (heditor : editor ∈ editors)
    (hplain : ∀ e ∈ d.find (Element.named [bytes editor.component]), PlainPicker d e) (halone : WarnsAlone editor d) :
    (TemplateRule.inputs editor).Step s (s.patch (editorPlan editor d (projectedSource editor)) [] 0) := by
  have hcarries := migrateEditors_carries hs heditor (projectedSource editor) (render_projectedSource editor)
  have hpicker (x : Spot) (hplace : x.place ∈ d.places)
      (hnamed : x.place.element.named [bytes editor.component] = true) := hplain _ (mem_find hplace hnamed)
  have hin : s.Each (Spot.In · d.content) [] 0 := hs.each fun x hx _ => hx
  have hsound : ∀ x : Spot, x.In d.content → x.place ∈ d.places →
      (editorPlan editor d (projectedSource editor) x.place).Sound x :=
    fun x _ hplace => inputs_sound heditor (hpicker x hplace)
  have hallowed : s.Each (fun x => (editorPlan editor d (projectedSource editor) x.place).Allowed
      (TemplateRule.inputs editor).growth x) [] 0 :=
    hs.each fun x hx hplace => inputs_allowed heditor hx (hpicker x hplace)
  have hevolves := Source.each_evolves_patch hin (hs.each hsound) hallowed
  have hspots : s.Each (fun x => x.In d.content ∧ x.place ∈ d.places) [] 0 := hs.each fun x hx hplace => ⟨hx, hplace⟩
  refine ⟨hs.wellFormed_patch hcarries hsound, Source.evolves_patch hin (hs.each hsound) hallowed, ⟨?_, ?_⟩, ?_⟩
  · refine Source.every_patch hin ((hevolves.and hspots).imp fun x ⟨hev, hx, hplace⟩ => ?_)
    by_cases hnamed : x.place.element.named [bytes editor.component] = true
    · have hplain := hpicker x hplace hnamed
      have hdrop : ∀ k ∈ (Element.ofTag (pickerTag d x.place.element)).keys, isDropdownKey k = false := by
        rw [hplain.keys]
        exact not_isDropdownKey
      have htag : pickerTag d x.place.element = if hasProjectedLabel x.place.element then _ else _ := rfl
      rw [editorPlan_picker hnamed]
      split
      · next hlabel =>
        rw [htag, if_pos hlabel] at hdrop
        refine fun _ => ⟨?_, hdrop⟩
        rw [hasProjectedLabel_place] at hlabel
        exact hev.anyChild (fun tag tag' first hedit => hedit.2.1)
          (fun tag hgone => absurd hgone.1 (by simp [TemplateRule.renames])) hlabel
      · next hlabel =>
        rw [htag, if_neg hlabel] at hdrop
        have hlabels : (projectedSource editor x.place.element).Every fun t _ _ => startTagName t = bytes "label" :=
          every_projectedSource (hplain.opening (by simpa using hlabel))
        refine ⟨hlabels.imp fun t _ _ ht hname => ?_, fun _ _ => ⟨?_, hdrop⟩⟩
        · exact absurd (hname.symm.trans ht) (TemplateRule.component_ne_label heditor)
        · rw [Source.anyChild_append, anyChild_projectedSource, Bool.true_or]
    · have hname : startTagName x.tag ≠ bytes editor.component := by
        intro hname
        refine hnamed ?_
        rw [Element.named, name_place]
        exact List.elem_iff.mpr (List.mem_singleton.mpr hname)
      unfold editorPlan
      dsimp only
      rw [if_neg hnamed]
      split <;> exact fun h => absurd h hname
  · exact warned_inputs hs heditor hplain halone heditor (Or.inl rfl)
  · exact fun other hother _ h => warned_inputs hs heditor hplain halone hother (Or.inr h)

end Inputs

namespace TemplateRule

/-- What a rule writes into a document is read as it is meant, and its warnings stand alone. -/
def Plain (d : Document) : TemplateRule → Prop
  | alignment => ∀ e ∈ d.find (Element.named [bytes tabs.component]), ∀ a ∈ newAlignment? e,
      (Element.ofTag (alignedTag d e a)).hasAttribute (attributeNames "tabAlignment") = true
  | wrap _ | review _ => True
  | headers f => ∀ e ∈ d.find f.isItem, (newHeader? f e).isSome → PlainHeader f e ∧
      (d.text e.startTag).endsWith "//>" = false
  | panels f => ∀ e ∈ d.find f.isItem, ∀ tag ∈ newPanel? f d e, WholeTag tag f.panelTag false
  | inputs editor => (∀ e ∈ d.find (Element.named [bytes editor.component]), PlainPicker d e) ∧ WarnsAlone editor d

variable {d : Document} {s : Source}

theorem exists_step {r : TemplateRule} (hr : r ∈ templateRules) (hs : Reading d s) (touched : Bool)
    (hplain : r.Plain d) (hwrapped : ∀ f, r = panels f → (wrap f).Done s) :
    ∃ s', applyChanges d.content (r.edits d touched) = .ok (render s'.pieces) ∧ r.Step s s' := by
  cases r with
  | alignment => exact ⟨_, (alignTabs_carries hs).apply, alignment_step hs hplain⟩
  | wrap f =>
    have hf : f ∈ families := mem_templateRules.mp hr
    exact ⟨_, (wrapTemplates_carries hs f).apply, wrap_step hs hf⟩
  | headers f =>
    have hf : f ∈ families := mem_templateRules.mp hr
    have hcarries := addHeaders_carries hs hf (headerSource f) fun e text => render_headerSource
    exact ⟨_, hcarries.apply, headers_step hs hf hplain⟩
  | panels f =>
    have hf : f ∈ families := mem_templateRules.mp hr
    exact ⟨_, addPanels_apply hs f, panels_step hs hf (hwrapped f rfl) hplain⟩
  | review f =>
    have hf : f ∈ families := mem_templateRules.mp hr
    exact ⟨_, (addReviewComments_carries hs f touched).apply, review_step hs hf touched⟩
  | inputs editor =>
    have heditor : editor ∈ editors := mem_templateRules.mp hr
    have hcarries := migrateEditors_carries hs heditor (projectedSource editor) (render_projectedSource editor)
    exact ⟨_, hcarries.apply, inputs_step hs heditor hplain.1 hplain.2⟩

/-- Headers are made of templates before the panels are. -/
theorem wrap_mem_of_panels {before after : List TemplateRule} {f : Family}
    (h : templateRules = before ++ panels f :: after) : wrap f ∈ before := by
  have hpanels : panels f ∈ templateRules := by simp [h]
  have hf : f ∈ families := mem_templateRules.mp hpanels
  have hwrap : wrap f ∈ templateRules := mem_templateRules.mpr hf
  rw [h] at hwrap
  rcases List.mem_append.mp hwrap with hmem | hmem
  · exact hmem
  · have hspares := templateRules_spare
    rw [h] at hspares
    have hlater := (List.pairwise_cons.mp (List.pairwise_append.mp hspares).2.1).1
    have hmem : wrap f ∈ after := (List.mem_cons.mp hmem).resolve_left (by simp)
    have hspare := hlater _ hmem
    simp [spares, adds] at hspare

/-- One more rule leaves a tree in which it and those before it have nothing left to do. -/
theorem exists_done {r : TemplateRule} {before after : List TemplateRule}
    (hrules : templateRules = before ++ r :: after) (hs : Reading d s) (touched : Bool) (hplain : r.Plain d)
    (hdone : ∀ q ∈ before, q.Done s) :
    ∃ s' : Source, applyChanges d.content (r.edits d touched) = .ok (render s'.pieces) ∧ s'.WellFormed ∧
      ∀ q ∈ before ++ [r], q.Done s' := by
  have hr : r ∈ templateRules := by simp [hrules]
  obtain ⟨s', happly, hstep⟩ := exists_step hr hs touched hplain fun f hf => hdone _ (wrap_mem_of_panels (hf ▸ hrules))
  refine ⟨s', happly, hstep.wellFormed, fun q hq => ?_⟩
  rcases List.mem_append.mp hq with hq | hq
  · have hspares : q.spares r = true := by
      have hall := templateRules_spare
      rw [hrules] at hall
      exact (List.pairwise_append.mp hall).2.2 q hq r List.mem_cons_self
    have hmem : q ∈ templateRules := by simp [hrules, hq]
    refine Done.lasts hmem hspares hstep.evolves (AllBracketed.of_wellFormed hs.wellFormed) ?_ ?_ (hdone q hq)
    · rintro f rfl
      obtain ⟨front, back, rfl⟩ := List.append_of_mem hq
      have hearlier : templateRules = front ++ panels f :: (back ++ r :: after) := by rw [hrules]; simp
      exact hdone _ (List.mem_append_left _ (wrap_mem_of_panels hearlier))
    · rintro editor rfl
      exact hstep.warned editor (mem_templateRules.mp hmem) hspares
  · rw [List.mem_singleton.mp hq]
    exact hstep.done

end TemplateRule

end Codemod.Release12
