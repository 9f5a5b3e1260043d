import Codemod.Proofs.Edit.InPlace
import Codemod.Proofs.Markup.Every
import Codemod.Proofs.Markup.Spans
import Codemod.Proofs.Release12.Reparse

namespace Codemod

open Edit Markup

namespace Markup

/-- The text at a range, if the range is one of the content. -/
def Span.text? (s : Span) (content : Bytes) : Option Bytes :=
  if s.start ≤ s.stop ∧ s.stop ≤ content.length then some (s.text content) else none

variable {s : Span} {content : Bytes}

theorem Span.text?_eq (h : s.Within ⟨0, content.length⟩) : s.text? content = some (s.text content) :=
  if_pos ⟨h.2.1, h.2.2⟩

theorem Span.within_content (hstart : s.start ≤ s.stop) (hstop : s.stop ≤ content.length) :
    s.Within ⟨0, content.length⟩ := ⟨Nat.zero_le _, hstart, hstop⟩

theorem Span.length_text (h : s.Within ⟨0, content.length⟩) : (s.text content).length = s.stop - s.start :=
  slice_length h.2.2

/-- The last offset of a byte. -/
def lastIndexOf? (b : UInt8) (s : Bytes) : Option Nat := (s.reverse.findIdx? (· == b)).map (s.length - 1 - ·)

/-- The attribute with the white space in front of it, read backwards from where it starts. -/
def Attribute.removalSpan? (a : Attribute) (content : Bytes) : Option Span := do
  let before ← Span.text? ⟨0, a.span.start⟩ content
  return ⟨a.span.start - (before.reverse.takeWhile isSpace).length, a.span.stop⟩

end Markup

namespace Edit

namespace Change

variable {content text : Bytes} {s : Span}

/-- Replace what stands at a range, if the range is one of the content. -/
def replaceSpan? (content : Bytes) (s : Span) (text : Bytes) : Option Change :=
  (s.text? content).map fun found => .replace s.start found text

theorem inPlace_insert {pos : Nat} (h : pos ≤ content.length) : (Change.insert pos text).InPlace content where
  start := Int.natCast_nonneg pos
  mode := .inl rfl
  stop := Int.ofNat_le.mpr h
  found := nofun

theorem inPlace_replace {pos : Nat} {remove : Bytes} (hstop : pos + remove.length ≤ content.length)
    (hfound : content.slice pos (pos + remove.length) = remove) : (Change.replace pos remove text).InPlace content where
  start := Int.natCast_nonneg pos
  mode := .inr rfl
  stop := by
    show ((pos : Int) + remove.length) ≤ content.length
    exact_mod_cast hstop
  found _ := by
    have hend : (Change.replace pos remove text).stop.toNat = pos + remove.length := by
      show ((pos : Int) + remove.length).toNat = pos + remove.length
      omega
    rw [hend]
    exact hfound

theorem inPlace_replaceSpan (h : s.Within ⟨0, content.length⟩) : (replaceSpan content s text).InPlace content := by
  have hend : s.start + (s.text content).length = s.stop := by
    rw [Span.length_text h]
    exact Nat.add_sub_cancel' h.2.1
  apply inPlace_replace
  · rw [hend]
    exact h.2.2
  · rw [hend]
    rfl

end Change

/-- Edits that come about without a slice out of bounds, and fit the content they were made for. -/
structure Yields (content : Bytes) (sliced : Option (List Change)) (changes : List Change) : Prop where
  sliced : sliced = some changes
  inPlace : ∀ c ∈ changes, c.InPlace content

/-- The same for one edit. -/
structure Makes (content : Bytes) (sliced : Option Change) (change : Change) : Prop where
  sliced : sliced = some change
  inPlace : change.InPlace content

/-- What each member of a list asks for, one after another. -/
def flatMap? {α : Type} (f : α → Option (List Change)) (l : List α) : Option (List Change) :=
  (l.mapM f).map List.flatten

section Yields

variable {content : Bytes} {α : Type}

theorem Makes.insert {pos : Nat} (text : Bytes) (h : pos ≤ content.length) :
    Makes content (some (.insert pos text)) (.insert pos text) := ⟨rfl, Change.inPlace_insert h⟩

theorem Makes.replaceSpan {s : Span} (text : Bytes) (h : s.Within ⟨0, content.length⟩) :
    Makes content (Change.replaceSpan? content s text) (.replaceSpan content s text) where
  sliced := by
    rw [Change.replaceSpan?, Span.text?_eq h]
    rfl
  inPlace := Change.inPlace_replaceSpan h

theorem Yields.nil : Yields content (some []) [] := ⟨rfl, fun _ hc => absurd hc List.not_mem_nil⟩

theorem Makes.yields {o : Option Change} {c : Change} (h : Makes content o c) : Yields content (o.map ([·])) [c] where
  sliced := by
    rw [h.sliced]
    rfl
  inPlace c' hc' := List.mem_singleton.mp hc' ▸ h.inPlace

theorem Yields.append {a b : Option (List Change)} {xs ys : List Change} (ha : Yields content a xs)
    (hb : Yields content b ys) : Yields content (do return (← a) ++ (← b)) (xs ++ ys) where
  sliced := by
    rw [ha.sliced, hb.sliced]
    rfl
  inPlace c hc := (List.mem_append.mp hc).elim (ha.inPlace c) (hb.inPlace c)

theorem mapM_eq_some {β : Type} {f? : α → Option β} {f : α → β} {l : List α} (h : ∀ x ∈ l, f? x = some (f x)) :
    l.mapM f? = some (l.map f) := by
  induction l with
  | nil => rfl
  | cons x rest ih =>
    obtain ⟨hx, hrest⟩ := List.forall_mem_cons.mp h
    rw [List.mapM_cons, hx, ih hrest]
    rfl

theorem Yields.map {f? : α → Option Change} {f : α → Change} {l : List α}
    (h : ∀ x ∈ l, Makes content (f? x) (f x)) : Yields content (l.mapM f?) (l.map f) where
  sliced := mapM_eq_some fun x hx => (h x hx).sliced
  inPlace c hc := by
    obtain ⟨x, hx, rfl⟩ := List.mem_map.mp hc
    exact (h x hx).inPlace

theorem Yields.flatMap {f? : α → Option (List Change)} {f : α → List Change} {l : List α}
    (h : ∀ x ∈ l, Yields content (f? x) (f x)) : Yields content (flatMap? f? l) (l.flatMap f) where
  sliced := by
    rw [flatMap?, mapM_eq_some fun x hx => (h x hx).sliced]
    rfl
  inPlace c hc := by
    obtain ⟨x, hx, hmem⟩ := List.mem_flatMap.mp hc
    exact (h x hx).inPlace c hmem

end Yields

end Edit

namespace Release12

/-! The rules for templates once more, with slices that fail out of bounds. -/

namespace Sliced

/-- The text goes behind the start tag; of a self-closing one it takes the place of the last slash. -/
def insertFirstChild (d : Document) (e : Element) (text : Bytes) : Option Change :=
  if e.selfClosing then do
    let slash ← lastIndexOf? '/' (← e.startTag.text? d.content)
    Change.replaceSpan? d.content ⟨e.startTag.start + slash, e.startTag.stop⟩ (.concat [">", text, "</", e.name, ">"])
  else some (.insert e.startTag.stop text)

def precededBy (d : Document) (offset : Nat) (text : Bytes) : Option Bool :=
  (Span.text? ⟨0, offset⟩ d.content).map (Bytes.endsWith · text)

/-- A note in front of a start tag, unless it stands there. -/
def note (d : Document) (text : Bytes) (e : Element) : Option (List Change) := do
  return if ← precededBy d e.startTag.start text then [] else [.insert e.startTag.start text]

def wrapTemplate (f : Family) (d : Document) (e : Element) : Option (List Change) :=
  let start := Bytes.concat ["<", f.headerTag, ">"]
  let stop := Bytes.concat ["</", f.headerTag, ">"]
  match e.endTag with
  | none => do
    let inner ← e.contentSpan.text? d.content
    (Change.replaceSpan? d.content e.span (.concat [start, inner, stop])).map ([·])
  | some close => do
    return (← (Change.replaceSpan? d.content e.startTag start).map ([·])) ++
      (← (Change.replaceSpan? d.content close stop).map ([·]))

def addHeader (f : Family) (d : Document) (e : Element) : Option (List Change) :=
  if (firstChild? e f.isHeader).isSome then some []
  else match header? f e with
    | none => some []
    | some text => (insertFirstChild d e text).map ([·])

def addPanel (f : Family) (d : Document) (e : Element) : Option (List Change) :=
  match firstChild? e f.isHeader, e.endTag with
  | some header, some close => do
    let body : Span := ⟨header.span.stop, close.start⟩
    let content ← body.text? d.content
    return if content.contains f.panelTag || isBlank content then []
      else [.insert body.start (openText (panelTag f e)), .insert body.stop (closeText f.panelTag)]
  | _, _ => some []

def removal (d : Document) (a : Attribute) : Option Change := do
  Change.replaceSpan? d.content (← a.removalSpan? d.content) []

def projectLabels (editor : Editor) (d : Document) (e : Element) : Option (List Change) :=
  let visible := e.attribute? (attributeNames "labelVisibility")
  match e.attributes (attributeNames "label") with
  | [] => (insertFirstChild d e (projectedLabel visible editor.defaultLabel)).map ([·])
  | labels => do
    return (← labels.mapM (removal d)) ++
      (← (insertFirstChild d e (labels.flatMap fun a => projectedLabel visible a.interpolated)).map ([·]))

def editorInputs (editor : Editor) (d : Document) (e : Element) : Option (List Change) :=
  let modes := e.attributes (attributeNames "mode")
  let dropped := (modes.filter fun a => unquote a.value = "dropdown").mapM (removal d)
  if (firstChild? e (·.hasAttribute ["igxLabel"])).isSome then dropped
  else do
    let dialog : List Change := if modes.isEmpty then [.insert e.attributePos " mode=\"dialog\""] else []
    return (← (do return (← dropped) ++ (← some dialog))) ++ (← projectLabels editor d e)

end Sliced

/-- The edits of a rule for templates, unless one of its slices is out of bounds. -/
def TemplateRule.sliced : TemplateRule → Document → Bool → Option (List Change)
  | alignment, d, _ => some (alignTabs d)
  | wrap f, d, _ =>
    flatMap? (Sliced.wrapTemplate f d) (distinct ((d.find f.isItem).flatMap (·.descendants isTabTemplate)))
  | headers f, d, _ => flatMap? (Sliced.addHeader f d) (d.find f.isItem)
  | panels f, d, _ => flatMap? (Sliced.addPanel f d) (d.find f.isItem)
  | review f, d, touched =>
    if touched then flatMap? (Sliced.note d reviewComment) (d.outermost (Element.named [f.component])) else some []
  | inputs editor, d, _ => do
    let pickers := d.find (Element.named [editor.component])
    let templates := distinct (pickers.flatMap (·.descendants editor.isTemplate))
    return (← flatMap? (Sliced.editorInputs editor d) pickers) ++
      (← flatMap? (Sliced.note d editor.templateWarning) templates)

/-- What the rules count on in an element. -/
structure Standing (content : Bytes) (e : Element) : Prop where
  sound : e.Sound content
  slash : e.selfClosing = true → bytes "/>" <:+ e.startTag.text content

section Standing

variable {d : Document} {s : Source} {e : Element}

theorem Reading.standing (hs : Reading d s) {place : Place} (hplace : place ∈ d.places) :
    Standing d.content place.element := by
  have hbuilt : place ∈ Element.placesIn [] (s.build 0) := by
    rw [hs.roots]
    exact hplace
  constructor
  · have hsound : place.element.Sound ([] ++ (render s.pieces ++ [])) :=
      Source.sound_of_build hs.wellFormed.nested hs.wellFormed.reads.valid place hbuilt
    rwa [List.nil_append, List.append_nil, hs.content] at hsound
  · intro hself
    have heach : s.Each (·.In d.content) [] 0 := hs.wellFormed.each fun x hx _ => hs.content ▸ hx
    obtain ⟨x, rfl, hx⟩ := heach.exists_spot hbuilt
    obtain ⟨used, breaks, h⟩ := hx.attributes
    obtain ⟨front, rfl⟩ := h.breaks_of_selfClosing hx hself
    have htag : x.tag = (60 :: (used ++ front)) ++ bytes "/>" := by
      rw [h.cut.split]
      simp
      rfl
    have htext : x.place.element.startTag.text d.content = x.tag := hx.slice_tag
    rw [htext, htag]
    exact List.suffix_append ..

theorem Reading.standing_of_mem_find (hs : Reading d s) {select : Element → Bool} (h : e ∈ d.find select) :
    Standing d.content e := by
  obtain ⟨he, -⟩ := List.mem_filter.mp h
  obtain ⟨place, hplace, rfl⟩ := List.mem_map.mp he
  exact hs.standing hplace

theorem Reading.standing_of_mem_distinct (hs : Reading d s) {pick select : Element → Bool}
    (h : e ∈ distinct ((d.find pick).flatMap (·.descendants select))) : Standing d.content e := by
  obtain ⟨place, hplace, rfl⟩ := List.mem_map.mp ((distinct_descendants_perm hs pick select).mem_iff.mp h)
  exact hs.standing (List.mem_filter.mp hplace).1

theorem Reading.standing_of_mem_outermost (hs : Reading d s) {select : Element → Bool} (h : e ∈ d.outermost select) :
    Standing d.content e := by
  rw [Document.outermost_eq] at h
  obtain ⟨place, hplace, rfl⟩ := List.mem_map.mp h
  exact hs.standing (List.mem_filter.mp hplace).1

namespace Standing

variable (h : Standing d.content e)

include h

theorem attributePos_le : e.attributePos ≤ d.content.length := by
  obtain ⟨-, hstart, hstop⟩ := h.sound.startTag
  unfold Element.attributePos
  cases hlast : e.attrs.getLast? with
  | some a =>
    obtain ⟨⟨-, -, hwithin⟩, -⟩ := h.sound.attrs a (List.mem_of_getLast? hlast)
    exact hwithin.trans hstop
  | none =>
    have hname := h.sound.opening.length_le
    rw [Span.length_text h.sound.startTag, List.length_append, show (bytes "<").length = 1 from rfl] at hname
    dsimp only at hstart hstop ⊢
    omega

/-- The last slash of a self-closing tag stands right before its end. -/
theorem lastIndexOf_slash (hself : e.selfClosing = true) : ∃ slash, e.startTag.start + slash = e.startTag.stop - 2 ∧
    2 ≤ e.startTag.stop ∧ lastIndexOf? '/' (e.startTag.text d.content) = some slash := by
  obtain ⟨front, hfront⟩ := h.slash hself
  have hlength := congrArg List.length hfront
  rw [Span.length_text h.sound.startTag, List.length_append, show (bytes "/>").length = 2 from rfl] at hlength
  refine ⟨front.length, by omega, by omega, ?_⟩
  rw [lastIndexOf?, ← hfront, List.reverse_append, show (bytes "/>").reverse = [62, 47] from rfl]
  have hfind : ([62, 47] ++ front.reverse).findIdx? (· == (('/' : Char) : UInt8)) = some 1 := rfl
  rw [hfind, Option.map_some, List.length_append]
  rfl

theorem insertFirstChild (text : Bytes) :
    Makes d.content (Sliced.insertFirstChild d e text) (insertFirstChild d e text) := by
  obtain ⟨-, hstart, hstop⟩ := h.sound.startTag
  unfold Sliced.insertFirstChild Release12.insertFirstChild
  cases hself : e.selfClosing with
  | false => exact .insert text hstop
  | true =>
    obtain ⟨slash, hslash, htwo, hindex⟩ := h.lastIndexOf_slash hself
    rw [if_pos rfl, if_pos rfl, Span.text?_eq h.sound.startTag]
    show Makes _ ((lastIndexOf? _ _).bind _) _
    rw [hindex, Option.bind_some, hslash]
    apply Makes.replaceSpan
    exact Span.within_content (Nat.sub_le ..) hstop

theorem precededBy (text : Bytes) :
    Sliced.precededBy d e.startTag.start text = some (precededBy d e.startTag.start text) := by
  obtain ⟨-, hstart, hstop⟩ := h.sound.startTag
  rw [Sliced.precededBy, Span.text?_eq (Span.within_content (Nat.zero_le _) (hstart.trans hstop))]
  rfl

theorem note (text : Bytes) : Yields d.content (Sliced.note d text e)
    (if Release12.precededBy d e.startTag.start text then [] else [.insert e.startTag.start text]) := by
  obtain ⟨-, hstart, hstop⟩ := h.sound.startTag
  rw [Sliced.note, h.precededBy]
  show Yields _ (some _) _
  split
  · exact .nil
  · exact (Makes.insert text (hstart.trans hstop)).yields

theorem removal {a : Attribute} (ha : a ∈ e.attrs) :
    Makes d.content (Sliced.removal d a) (.deleteSpan d.content (a.removalSpan d.content)) := by
  obtain ⟨⟨-, hstart, hstop⟩, -⟩ := h.sound.attrs a ha
  have hlength := hstop.trans h.sound.startTag.2.2
  have hspan : a.removalSpan? d.content = some (a.removalSpan d.content) := by
    rw [Attribute.removalSpan?, Span.text?_eq (Span.within_content (Nat.zero_le _) (hstart.trans hlength))]
    rfl
  rw [Sliced.removal, hspan]
  apply Makes.replaceSpan
  exact Span.within_content ((Nat.sub_le ..).trans hstart) hlength

theorem wrapTemplate (f : Family) : Yields d.content (Sliced.wrapTemplate f d e) (wrapTemplate f d e) := by
  unfold Sliced.wrapTemplate Release12.wrapTemplate
  cases hclose : e.endTag with
  | none =>
    dsimp only
    rw [Span.text?_eq h.sound.contentSpan]
    exact (Makes.replaceSpan _ h.sound.span).yields
  | some close =>
    exact (Makes.replaceSpan _ h.sound.startTag).yields.append (Makes.replaceSpan _ (h.sound.endTag close hclose)).yields

theorem addHeader (f : Family) : Yields d.content (Sliced.addHeader f d e)
    ((newHeader? f e).toList.map (Release12.insertFirstChild d e)) := by
  unfold Sliced.addHeader newHeader?
  split
  · exact .nil
  · cases header? f e with
    | none => exact .nil
    | some text => exact (h.insertFirstChild text).yields

/-- What is wrapped lies between the header and the end tag. -/
theorem body_within {f : Family} {header : Element} {close : Span} (hheader : firstChild? e f.isHeader = some header)
    (hclose : e.endTag = some close) : Span.Within ⟨header.span.stop, close.start⟩ ⟨0, d.content.length⟩ := by
  have hcontent : e.contentSpan.stop = close.start := by
    rw [Element.contentSpan, hclose]
  obtain ⟨-, -, hstop⟩ := h.sound.children header (List.mem_of_find?_eq_some hheader)
  obtain ⟨-, hstart, hlength⟩ := h.sound.endTag close hclose
  exact Span.within_content (hcontent ▸ hstop) (hstart.trans hlength)

theorem addPanel (f : Family) : Yields d.content (Sliced.addPanel f d e) (panelEdits f d e) := by
  unfold Sliced.addPanel panelEdits newPanel? body?
  cases hheader : firstChild? e f.isHeader with
  | none => exact .nil
  | some header =>
    cases hclose : e.endTag with
    | none => exact .nil
    | some close =>
      have hbody := h.body_within hheader hclose
      have hstart := hbody.2.1
      have hstop := hbody.2.2
      dsimp only
      rw [Span.text?_eq hbody, Option.toList_some, List.flatMap_singleton, Option.bind_some]
      show Yields _ (some (if (Bytes.contains (d.text _) f.panelTag || isBlank (d.text _)) then [] else _)) _
      split
      · exact .nil
      · exact (Makes.insert _ (hstart.trans hstop)).yields.append (Makes.insert _ hstop).yields

theorem projectLabels (editor : Editor) : Yields d.content (Sliced.projectLabels editor d e) (projectLabels editor d e) := by
  unfold Sliced.projectLabels Release12.projectLabels
  cases hlabels : e.attributes (attributeNames (bytes "label")) with
  | nil => exact (h.insertFirstChild _).yields
  | cons label rest =>
    have hattrs : ∀ a ∈ label :: rest, a ∈ e.attrs := by
      rw [← hlabels]
      intro a ha
      exact (List.mem_filter.mp ha).1
    apply Yields.append
    · exact .map fun a ha => h.removal (hattrs a ha)
    · exact (h.insertFirstChild _).yields

theorem editorInputs (editor : Editor) : Yields d.content (Sliced.editorInputs editor d e) (editorInputs editor d e) := by
  have hdropped : Yields d.content
      (((e.attributes (attributeNames "mode")).filter fun a => unquote a.value = "dropdown").mapM (Sliced.removal d))
      (((e.attributes (attributeNames "mode")).filter fun a => unquote a.value = "dropdown").map fun a =>
        .deleteSpan d.content (a.removalSpan d.content)) := by
    apply Yields.map
    intro a ha
    exact h.removal (List.mem_filter.mp (List.mem_filter.mp ha).1).1
  unfold Sliced.editorInputs Release12.editorInputs
  dsimp only
  split
  · exact hdropped
  · apply Yields.append _ (h.projectLabels editor)
    apply hdropped.append
    split
    · exact (Makes.insert _ h.attributePos_le).yields
    · exact .nil

end Standing

theorem filter_map_eq_flatMap {α β : Type} (p : α → Bool) (f : α → β) (l : List α) :
    (l.filter fun x => !p x).map f = l.flatMap fun x => if p x then [] else [f x] := by
  induction l with
  | nil => rfl
  | cons x rest ih => cases hx : p x <;> simp [hx, ih]

theorem alignTabs_inPlace (hs : Reading d s) : ∀ c ∈ alignTabs d, c.InPlace d.content := by
  intro c hc
  rw [alignTabs_eq] at hc
  obtain ⟨e, he, hedit⟩ := List.mem_flatMap.mp hc
  obtain ⟨alignment, -, rfl⟩ := List.mem_map.mp hedit
  exact Change.inPlace_insert (hs.standing_of_mem_find he).attributePos_le

/-- No slice of a rule for templates is out of bounds, and its edits fit the template. -/
theorem TemplateRule.yields (hs : Reading d s) (r : TemplateRule) (touched : Bool) :
    Yields d.content (r.sliced d touched) (r.edits d touched) := by
  cases r with
  | alignment => exact ⟨rfl, alignTabs_inPlace hs⟩
  | wrap f => exact .flatMap fun e he => (hs.standing_of_mem_distinct he).wrapTemplate f
  | headers f =>
    rw [TemplateRule.edits, addHeaders_eq]
    exact .flatMap fun e he => (hs.standing_of_mem_find he).addHeader f
  | panels f =>
    rw [TemplateRule.edits, addPanels_eq]
    exact .flatMap fun e he => (hs.standing_of_mem_find he).addPanel f
  | review f =>
    rw [TemplateRule.sliced, TemplateRule.edits, addReviewComments]
    split
    · rw [filter_map_eq_flatMap]
      exact .flatMap fun e he => (hs.standing_of_mem_outermost he).note reviewComment
    · exact .nil
  | inputs editor =>
    rw [TemplateRule.sliced, TemplateRule.edits, migrateEditors]
    apply Yields.append
    · exact .flatMap fun e he => (hs.standing_of_mem_find he).editorInputs editor
    · rw [filter_map_eq_flatMap]
      exact .flatMap fun e he => (hs.standing_of_mem_distinct he).note editor.templateWarning

end Standing

end Release12

end Codemod
