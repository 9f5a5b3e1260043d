import Codemod.Proofs.Markup.Patched
import Codemod.Proofs.Release12.Wrap

namespace Codemod.Release12

open Edit Markup

variable {d : Document} {s : Source}

/-- The edits that give an element a first child. -/
theorem changes_fill {x : Spot} (hx : x.In d.content) (edits : Script) (first : Source) :
    ((Patch.fill edits first).head x.pos x.tag x.selfClosing).changes ++
      ((Patch.fill edits first).tail x.closePos x.close).changes =
        edits.changes ++ [insertFirstChild d x.place.element (render first.pieces)] := by
  have htail : ((Patch.fill edits first).tail x.closePos x.close).changes = [] := by
    cases x.close <;> simp [Patch.tail]
  have hself : x.place.element.selfClosing = x.selfClosing := rfl
  have hstop : x.place.element.startTag.stop = x.pos + x.tag.length := rfl
  rw [htail, List.append_nil]
  by_cases hs : x.selfClosing = true
  · obtain ⟨used, breaks, h⟩ := hx.attributes
    obtain ⟨front, rfl⟩ := h.breaks_of_selfClosing hx hs
    have hlen := h.length
    rw [List.length_append, List.length_singleton] at hlen
    have hslash : d.content.slice (x.pos + x.tag.length - 2) (x.pos + x.tag.length) = bytes "/>" := by
      have hall : d.content.slice x.pos (x.pos + (x.tag.length - 2)) ++
          d.content.slice (x.pos + (x.tag.length - 2)) (x.pos + x.tag.length) =
            d.content.slice x.pos (x.pos + x.tag.length) :=
        slice_join (by omega) (by omega) hx.stop_le
      rw [hx.slice_take (by omega), hx.slice_tag] at hall
      have htag : x.tag = (60 :: (used ++ front)) ++ bytes "/>" := by
        rw [h.cut.split]
        simp
        rfl
      have htake : x.tag.take (x.tag.length - 2) = 60 :: (used ++ front) := by
        have hn : x.tag.length - 2 = (60 :: (used ++ front)).length := by
          simp
          omega
        rw [hn]
        conv_lhs => rw [htag, List.take_left]
      rw [htake] at hall
      conv_rhs at hall => rw [htag]
      rw [show x.pos + x.tag.length - 2 = x.pos + (x.tag.length - 2) by omega]
      exact List.append_cancel_left hall
    simp only [Patch.head, hs, if_true, Script.changes_append, Script.changes_edit, Script.changes_nil,
      insertFirstChild, hself, hstop, Change.replaceSpan, Span.text, hslash, name_place]
    simp [closeTag, Bytes.concat, Spot.name]
  · simp only [Patch.head, hs, Bool.false_eq_true, if_false, Script.changes_append, Script.changes_edit,
      Script.changes_nil, insertFirstChild, hself, hstop]

/-- The header that an item gets. -/
def newHeader? (f : Family) (e : Element) : Option Bytes :=
  if (firstChild? e f.isHeader).isSome then none else header? f e

theorem addHeaders_eq (f : Family) (d : Document) : addHeaders f d =
    (d.find f.isItem).flatMap fun e => (newHeader? f e).toList.map (insertFirstChild d e) := by
  unfold addHeaders
  rw [List.filterMap_eq_flatMap_toList]
  congr 1
  funext e
  unfold newHeader?
  split
  · rfl
  · cases header? f e <;> rfl

/-- The headers as a plan; `first` gives the new children. -/
def headerPlan (f : Family) (d : Document) (first : Element → Source) (place : Place) : Patch :=
  if f.isItem place.element && (newHeader? f place.element).isSome then
    .fill (tagEdits d.content place.element [] none (openStop place.element)) (first place.element)
  else .keep

theorem header_ne_nil {f : Family} {e : Element} {text : Bytes} (h : newHeader? f e = some text) : text ≠ [] := by
  unfold newHeader? header? at h
  split at h
  · cases h
  · dsimp only at h
    split at h
    · cases h
    · cases h
      simp [Bytes.concat, bytes]

theorem item_ordinary {f : Family} (hf : f ∈ families) {name : Bytes} (h : name ∈ f.tags.map bytes) : Ordinary name :=
  .of_dash ((names_of_family hf).2.1 name h)

theorem addHeaders_carries (hs : Reading d s) {f : Family} (hf : f ∈ families) (first : Element → Source)
    (hfirst : ∀ e text, newHeader? f e = some text → render (first e).pieces = text) :
    Carries d s [] (headerPlan f d first) (addHeaders f d) := by
  refine hs.carries (fun place => if f.isItem place.element then
    (newHeader? f place.element).toList.map (insertFirstChild d place.element) else []) ?_ ?_ ?_ ?_
  · intro x hx
    unfold headerPlan
    split
    · next h =>
      obtain ⟨hitem, hnew⟩ := Bool.and_eq_true_iff.mp h
      obtain ⟨text, htext⟩ := Option.isSome_iff_exists.mp hnew
      refine fill_fits hx (closed_of_ordinary hx (item_ordinary hf (name_of_named hitem))) (List.nil_sublist _)
        (by simp) ?_
      rw [hfirst _ _ htext]
      exact header_ne_nil htext
    · trivial
  · intro x hx
    unfold headerPlan
    cases hitem : f.isItem x.place.element with
    | false => exact changes_keep x
    | true =>
      cases hnew : newHeader? f x.place.element with
      | none => exact changes_keep x
      | some text =>
        simp only [Option.isSome_some, Bool.and_true, if_true]
        rw [changes_fill hx, changes_tagEdits, hfirst _ _ hnew]
        rfl
  · rw [addHeaders_eq, flatMap_find]
  · refine pairwise_of_not_inserts fun c hc => ?_
    rw [addHeaders_eq] at hc
    obtain ⟨e, -, hc⟩ := List.mem_flatMap.mp hc
    obtain ⟨text, htext, rfl⟩ := List.mem_map.mp hc
    have hne := header_ne_nil (Option.mem_toList.mp htext)
    unfold insertFirstChild
    split
    · simp [Change.inserts, Change.replaceSpan, Change.replace]
    · simp [Change.inserts, Change.insert, hne]

/-- Headers that stand alone keep the items whole. -/
theorem headerPlan_sound {f : Family} (hf : f ∈ families) {first : Element → Source} {x : Spot}
    (hx : x.In d.content)
    (hsafe : f.isItem x.place.element = true → (newHeader? f x.place.element).isSome → (first x.place.element).Standalone ∧
      (x.tag.endsWith "//>") = false) : (headerPlan f d first x.place).Sound x := by
  unfold headerPlan
  split
  · next h =>
    obtain ⟨hitem, hnew⟩ := Bool.and_eq_true_iff.mp h
    obtain ⟨halone, hslash⟩ := hsafe hitem hnew
    obtain ⟨h1, h2⟩ := isStartTag_opened hx hslash
    exact ⟨item_ordinary hf (name_of_named hitem), h1, h2, halone⟩
  · trivial

/-- The start tag of the header of an item. -/
def headerOpening (f : Family) (e : Element) : Bytes := .concat
  ["<", f.headerTag, (e.attribute? (attributeNames "routerLink")).elim [] fun a => " " ++ formatAttribute a,
    classAttribute e f.headerClassTags, ">"]

def iconOpening (f : Family) : Bytes := .concat ["<igx-icon ", f.iconDirective, ">"]

def labelOpening (f : Family) : Bytes := .concat ["<span ", f.labelDirective, ">"]

/-- The content of a header: its icon and its label. -/
def headerContent (f : Family) (icon label : Option Attribute) : Source :=
  let text := label.elim .nil fun a => .gap (.text [10])
    (.tagged (labelOpening f) "span" (.gap (.text a.interpolated) .nil) (.gap (.text [10]) .nil))
  icon.elim text fun a => .gap (.text [10])
    (.tagged (iconOpening f) "igx-icon" (.gap (.text a.interpolated) .nil) text)

/-- The header of an item as a tree, if its values are read as they are meant. -/
def headerSource (f : Family) (e : Element) : Source :=
  .gap (.text [10]) (.tagged (headerOpening f e) f.headerTag
    (headerContent f (e.attribute? (attributeNames "icon")) (e.attribute? (attributeNames "label"))) .nil)

theorem render_headerContent (f : Family) (icon label : Option Attribute) :
    render (headerContent f icon label).pieces = Bytes.concat
      [icon.elim [] fun a => .concat ["\n<igx-icon ", f.iconDirective, ">", a.interpolated, "</igx-icon>"],
        label.elim [] fun a => .concat ["\n<span ", f.labelDirective, ">", a.interpolated, "</span>\n"]] := by
  cases icon <;> cases label <;>
    simp [headerContent, Source.pieces, Source.render_tagged, Gap.piece, Piece.raw, Bytes.concat, iconOpening,
      labelOpening, closeTag] <;> rfl

theorem render_headerSource {f : Family} {e : Element} {text : Bytes} (h : newHeader? f e = some text) :
    render (headerSource f e).pieces = text := by
  unfold newHeader? header? at h
  split at h
  · cases h
  · dsimp only at h
    split at h
    · cases h
    · cases h
      simp only [headerSource, Source.pieces, render_cons, Source.render_tagged, render_headerContent]
      simp [headerOpening, Gap.piece, Piece.raw, Bytes.concat, closeTag]
      rfl

/-- The values of a header are read as they are meant. -/
structure PlainHeader (f : Family) (e : Element) : Prop where
  opening : WholeTag (headerOpening f e) f.headerTag false
  icon : ∀ a ∈ e.attribute? (attributeNames "icon"), calm a.interpolated = true
  label : ∀ a ∈ e.attribute? (attributeNames "label"), calm a.interpolated = true

theorem wholeTag_openings {f : Family} (hf : f ∈ families) :
    WholeTag (iconOpening f) "igx-icon" false ∧ WholeTag (labelOpening f) "span" false := by
  have h : ∀ f ∈ families, ∀ x ∈ [(iconOpening f, bytes "igx-icon"), (labelOpening f, bytes "span")],
      x.1.head? = some 60 ∧ (x.1.drop 1).head?.any Bytes.isLetter = true ∧
      TagState.name.finish (x.1.drop 1) = some (false, []) ∧ startTagName x.1 = x.2 := by decide +kernel
  obtain ⟨h1, h2, h3, h4⟩ := h f hf (iconOpening f, bytes "igx-icon") (by simp)
  obtain ⟨g1, g2, g3, g4⟩ := h f hf (labelOpening f, bytes "span") (by simp)
  exact ⟨⟨⟨h1, h2, h3⟩, h4⟩, ⟨g1, g2, g3⟩, g4⟩

theorem filling_headerContent {f : Family} (hf : f ∈ families) {icon label : Option Attribute}
    (hicon : ∀ a ∈ icon, calm a.interpolated = true) (hlabel : ∀ a ∈ label, calm a.interpolated = true) :
    (headerContent f icon label).Filling := by
  obtain ⟨htag₁, htag₂⟩ := wholeTag_openings hf
  have hord₁ : Ordinary (bytes "igx-icon") := .of_dash (by decide)
  have hord₂ : Ordinary (bytes "span") := ⟨by decide, by decide, by decide, by decide⟩
  have hname₁ : TagName (bytes "igx-icon") := ⟨by decide, by decide⟩
  have hname₂ : TagName (bytes "span") := ⟨by decide, by decide⟩
  have htext : (label.elim Source.nil fun a => .gap (.text [10])
      (.tagged (labelOpening f) "span" (.gap (.text a.interpolated) .nil) (.gap (.text [10]) .nil))).Filling := by
    cases label with
    | none => exact Source.filling_nil
    | some a =>
      exact Source.filling_break htag₂ hord₂ hname₂ (Source.filling_text (hlabel a rfl)) (Source.filling_text rfl)
  cases icon with
  | none => exact htext
  | some a => exact Source.filling_break htag₁ hord₁ hname₁ (Source.filling_text (hicon a rfl)) htext

theorem PlainHeader.standalone {f : Family} (hf : f ∈ families) {e : Element} (h : PlainHeader f e) :
    (headerSource f e).Standalone :=
  Source.standalone_break h.opening (header_ordinary hf).1 (header_ordinary hf).2
    (filling_headerContent hf h.icon h.label) Source.standalone_nil

end Codemod.Release12
