import Codemod.Proofs.Markup.Enclose
import Codemod.Proofs.Release12.Header

namespace Codemod.Release12

open Edit Markup

/-- The start tag of the panel of an item. -/
def panelTag (f : Family) (e : Element) : Bytes :=
  .concat ["<", f.panelTag, classAttribute e f.panelClassTags, ">"]

/-- What follows the header of an item. -/
def body? (f : Family) (e : Element) : Option Span :=
  match firstChild? e f.isHeader, e.endTag with
  | some header, some close => some ⟨header.span.stop, close.start⟩
  | _, _ => none

/-- The start tag of the panel that an item gets. -/
def newPanel? (f : Family) (d : Document) (e : Element) : Option Bytes :=
  (body? f e).bind fun body =>
    if (d.text body).contains f.panelTag || isBlank (d.text body) then none else some (panelTag f e)

def panelEnclosure (f : Family) (d : Document) : Enclosure where
  header := f.headerTag
  name := f.panelTag
  tag? place := if f.isItem place.element then newPanel? f d place.element else none

def panelEdits (f : Family) (d : Document) (e : Element) : List Change :=
  (body? f e).toList.flatMap fun body => (newPanel? f d e).toList.flatMap fun tag =>
    [.insert body.start (openText tag), .insert body.stop (closeText f.panelTag)]

theorem addPanels_eq (f : Family) (d : Document) : addPanels f d = (d.find f.isItem).flatMap (panelEdits f d) := by
  have hopen : ∀ e, Bytes.concat [bytes "\n<", bytes f.panelTag, classAttribute e f.panelClassTags, bytes ">"] =
      openText (panelTag f e) := by
    intro e
    simp [Bytes.concat, openText, panelTag]
    rfl
  have hclose : Bytes.concat [bytes "</", bytes f.panelTag, bytes ">\n"] = closeText f.panelTag := by
    simp [Bytes.concat, closeText, closeTag]
    rfl
  unfold addPanels
  congr 1
  funext e
  unfold panelEdits newPanel? body?
  cases firstChild? e f.isHeader with
  | none => rfl
  | some header =>
    cases e.endTag with
    | none => rfl
    | some close =>
      simp only [hopen, hclose, Option.toList_some, List.flatMap_cons, List.flatMap_nil, List.append_nil,
        Option.bind_some]
      split <;> rfl

theorem headerStop?_eq (header : Bytes) (p : Nat) (s : Source) :
    s.headerStop? header p = ((s.build p).find? (Element.named [header])).map (·.span.stop) := by
  induction s generalizing p with
  | nil => rfl
  | gap g next ih => exact ih _
  | element t selfClosing inner close next _ ih =>
    have hname : (Source.node p t selfClosing inner close).name = startTagName t := StartTag.scan_name ..
    rw [Source.headerStop?, Source.build_element, List.find?_cons]
    by_cases ht : startTagName t = header
    · have hnamed : (Source.node p t selfClosing inner close).named [header] = true := by
        simp [Element.named, hname, ht]
      rw [if_pos ht, hnamed]
      rfl
    · have hnamed : (Source.node p t selfClosing inner close).named [header] = false := by
        simp [Element.named, hname, ht]
      rw [if_neg ht, hnamed]
      exact ih _

variable {d : Document} {s : Source}

theorem body?_place (f : Family) (x : Spot) : body? f x.place.element =
    (x.inner.headerStop? f.headerTag (x.pos + x.tag.length)).bind fun q => x.close.map fun _ => ⟨q, x.closePos⟩ := by
  rw [headerStop?_eq]
  unfold body?
  have hchild : firstChild? x.place.element f.isHeader =
      (x.inner.build (x.pos + x.tag.length)).find? (Element.named [bytes f.headerTag]) := rfl
  have hend : x.place.element.endTag = x.close.map fun c => ⟨x.closePos, x.closePos + c.length⟩ := rfl
  rw [hchild, hend]
  cases (x.inner.build (x.pos + x.tag.length)).find? (Element.named [bytes f.headerTag]) with
  | none => rfl
  | some header => cases x.close <;> rfl

theorem enclosable_panel (f : Family) (x : Spot) : Source.Enclosable (panelEnclosure f d) x := by
  intro hsome
  simp only [panelEnclosure] at hsome ⊢
  split at hsome
  · unfold newPanel? at hsome
    rw [body?_place] at hsome
    cases hq : x.inner.headerStop? f.headerTag (x.pos + x.tag.length) with
    | none => simp [hq] at hsome
    | some q =>
      cases hc : x.close with
      | none => simp [hq, hc] at hsome
      | some c =>
        refine ⟨rfl, q, rfl, ?_⟩
        by_contra hle
        have hblank : isBlank (d.text ⟨q, x.closePos⟩) = true := by
          have hnil : d.text ⟨q, x.closePos⟩ = [] := by
            simp only [Document.text, Span.text, Bytes.slice]
            refine List.drop_eq_nil_of_le ?_
            rw [List.length_take]
            omega
          rw [hnil]
          simp [isBlank, Text.trimBytes, Text.scalars]
        simp [hq, hc, hblank] at hsome
  · cases hsome

theorem encloseEdits_panel (f : Family) (x : Spot) : Source.encloseEdits (panelEnclosure f d) x =
    if f.isItem x.place.element then panelEdits f d x.place.element else [] := by
  have hable := enclosable_panel (d := d) f x
  unfold Source.encloseEdits
  unfold Source.Enclosable at hable
  simp only [panelEnclosure] at hable ⊢
  split
  · next hitem =>
    unfold panelEdits
    simp only [hitem, if_true] at hable
    cases htag : newPanel? f d x.place.element with
    | none => simp [Source.closing]
    | some tag =>
      rw [htag] at hable
      obtain ⟨hclose, q, hq, -⟩ := hable rfl
      obtain ⟨c, hc⟩ := Option.isSome_iff_exists.mp hclose
      rw [body?_place, hq, hc]
      rfl
  · simp [Source.closing]

theorem panel_plain {f : Family} (hf : f ∈ families) : (panelEnclosure f d).Plain := by
  obtain ⟨hdash, hletter, hplain⟩ := (names_of_family hf).2.2 f.panelTag (by simp)
  exact ⟨(header_ordinary hf).1, .of_dash hdash, hletter, fun b hb => (hplain b hb).1⟩

theorem addPanels_apply (hs : Reading d s) (f : Family) :
    applyChanges d.content (addPanels f d) = .ok (render (s.enclosed (panelEnclosure f d) [] 0).pieces) := by
  rw [← hs.content]
  refine Source.applyChanges_enclosed (fun place =>
    if f.isItem place.element then panelEdits f d place.element else [])
    (hs.wellFormed.each fun x hx _ => ⟨hx, enclosable_panel f x⟩) ?_ ?_ ?_
  · exact hs.wellFormed.each fun x _ _ => encloseEdits_panel f x
  · rw [addPanels_eq, flatMap_find, hs.roots]
    exact List.Perm.refl _
  · intro c hc
    rw [addPanels_eq] at hc
    obtain ⟨e, -, hc⟩ := List.mem_flatMap.mp hc
    obtain ⟨body, -, hc⟩ := List.mem_flatMap.mp hc
    obtain ⟨tag, -, hc⟩ := List.mem_flatMap.mp hc
    rcases List.mem_cons.mp hc with rfl | hc
    · simp [Change.inserts, Change.insert, openText]
    · rw [List.mem_singleton.mp hc]
      simp [Change.inserts, Change.insert, closeText]

/-- Panels whose start tags are start tags keep the template whole. -/
theorem wellFormed_panels (hs : Reading d s) {f : Family} (hf : f ∈ families)
    (hsafe : ∀ x : Spot, x.In d.content → x.place ∈ d.places → f.isItem x.place.element = true →
      ∀ tag ∈ newPanel? f d x.place.element, IsStartTag tag false ∧ startTagName tag = f.panelTag) :
    (s.enclosed (panelEnclosure f d) [] 0).WellFormed := by
  refine hs.wellFormed.enclosed (panel_plain hf) (hs.wellFormed.each fun x hx hplace => ⟨hx, enclosable_panel f x, ?_⟩)
  intro tag htag
  simp only [panelEnclosure] at htag
  split at htag
  · next hitem =>
    have hplace : x.place ∈ d.places := by
      rw [Document.places, ← hs.roots]
      exact hplace
    exact ⟨item_ordinary hf (name_of_named hitem), hsafe x (hs.content ▸ hx) hplace hitem tag htag⟩
  · cases htag

end Codemod.Release12
