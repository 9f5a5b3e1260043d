import Codemod.Proofs.Markup.TagChange
import Codemod.Proofs.Release12.Plan

namespace Codemod.Markup

/-- The outline with another start tag for the element at `pos`; the outline begins at `start`. -/
def Outline.reopen (pos : Nat) (opening : Opening) : (start : Nat) → Outline → Outline
  | _, .rest text => .rest text
  | start, .element before old inner close next =>
    let p := start + before.length
    let q := p + old.raw.length
    .element before (if p = pos then opening else old) (inner.reopen pos opening q) close
      (next.reopen pos opening (q + inner.render.length + (close.getD []).length))

/-- The outline of a document with another start tag for an element. -/
def Document.reopen (d : Document) (e : Element) (opening : Opening) : Outline :=
  d.outline.reopen e.startTag.start opening 0

end Codemod.Markup

namespace Codemod.Release12

open Edit Markup

variable {d : Document} {s : Source}

/-- Two start tags that begin at one place are one. -/
theorem tag_eq_of_pos {content : Bytes} {x y : Spot} (hx : x.In content) (hy : y.In content) (h : x.pos = y.pos) :
    x.tag = y.tag ∧ x.selfClosing = y.selfClosing := by
  obtain ⟨pre, post, hpre, hcontent⟩ := hx.split
  obtain ⟨pre', post', hpre', hcontent'⟩ := hy.split
  have hsame := hcontent.symm.trans hcontent'
  obtain ⟨rfl, hback⟩ := List.append_inj hsame (by omega)
  generalize render x.inner.pieces ++ (x.close.getD [] ++ post) = u at hback
  generalize render y.inner.pieces ++ (y.close.getD [] ++ post') = v at hback
  obtain ⟨a, t, hxt, -, hfx⟩ := hx.start.eq_cons
  obtain ⟨b, r, hyt, -, hfy⟩ := hy.start.eq_cons
  have hx' := TagState.finish_append hfx u
  have hy' := TagState.finish_append hfy v
  rw [hxt, hyt] at hback
  rw [show a :: t ++ u = b :: r ++ v from (List.cons.inj hback).2, hy'] at hx'
  obtain ⟨hself, hrest⟩ := Prod.mk.inj (Option.some.inj hx')
  refine ⟨?_, hself.symm⟩
  rw [List.nil_append, List.nil_append] at hrest
  rw [hxt, hyt]
  rw [hrest] at hback
  exact List.append_cancel_right hback

theorem flatMap_eq_of_unique {α β : Type} {l : List α} {f : α → Nat} (hl : l.Pairwise fun a b => f a < f b) {y : α}
    (hy : y ∈ l) (g : α → List β) : (l.flatMap fun z => if f z = f y then g z else []) = g y := by
  induction l with
  | nil => cases hy
  | cons z l ih =>
    obtain ⟨hz, hl⟩ := List.pairwise_cons.mp hl
    rw [List.flatMap_cons]
    rcases List.mem_cons.mp hy with rfl | hy
    · have hnone : (l.flatMap fun z => if f z = f y then g z else []) = [] := by
        refine List.flatMap_eq_nil_iff.mpr fun x hx => if_neg ?_
        have := hz x hx
        omega
      rw [if_pos rfl, hnone, List.append_nil]
    · rw [if_neg (by have := hz y hy; omega), List.nil_append, ih hl hy]

section Retag

variable {y : Spot} {dropped : List Attribute} {added : Option Bytes}

/-- Attributes are taken out of one start tag, and another is put behind the last. -/
def retagPlan (d : Document) (pos : Nat) (dropped : List Attribute) (added : Option Bytes) (place : Place) : Patch :=
  if place.element.startTag.start = pos then
    .retag (tagEdits d.content place.element dropped added place.element.startTag.stop)
  else .keep

/-- The changes of the plan. -/
def retagChanges (content : Bytes) (e : Element) (dropped : List Attribute) (added : Option Bytes) : List Change :=
  dropped.map (fun a => .deleteSpan content (a.removalSpan content)) ++ added.toList.map (.insert e.attributePos)

theorem tag_of_start {x : Spot} (hx : x.In d.content) (hy : y.In d.content) (h : x.pos = y.pos) :
    x.element.tag = y.element.tag ∧ x.selfClosing = y.selfClosing ∧ x.tag = y.tag := by
  obtain ⟨htag, hself⟩ := tag_eq_of_pos hx hy h
  refine ⟨?_, hself, htag⟩
  simp only [Spot.element, Source.node, Element.tag, h, htag, hself]

theorem retag_carries (hs : Reading d s) (hy : y.In d.content) (hplace : y.place ∈ d.places)
    (hdrop : dropped.Sublist y.element.attrs) (hadd : ∀ text ∈ added, text ≠ []) :
    Carries d s [] (retagPlan d y.pos dropped added) (retagChanges d.content y.element dropped added) := by
  refine hs.carries (fun place => if place.element.startTag.start = y.pos then
    retagChanges d.content place.element dropped added else []) ?_ ?_ ?_ ?_
  · intro x hx
    unfold retagPlan
    split
    · next hpos =>
      have hattrs : x.element.attrs = y.element.attrs := by
        rw [Element.attrs, (tag_of_start hx hy hpos).1, ← Element.attrs]
      exact retag_fits hx (hattrs ▸ hdrop) hadd
    · trivial
  · intro x hx
    unfold retagPlan
    split
    · cases x.close <;> simp [Patch.head, Patch.tail, changes_tagEdits, retagChanges]
    · exact changes_keep x
  · have hpairwise := hs.wellFormed.pairwise_places
    rw [hs.roots] at hpairwise
    exact List.Perm.of_eq (flatMap_eq_of_unique hpairwise hplace (retagChanges d.content ·.element dropped added)).symm
  · refine pairwise_of_not_inserts fun c hc => ?_
    rcases List.mem_append.mp hc with hc | hc
    · obtain ⟨a, -, rfl⟩ := List.mem_map.mp hc
      simp [Change.inserts, Change.deleteSpan, Change.replaceSpan, Change.replace]
    · obtain ⟨text, htext, rfl⟩ := List.mem_map.mp hc
      simp [Change.inserts, Change.insert, hadd text (by simpa using htext)]

/-- The edits of a start tag do not depend on what the element holds. -/
theorem tagEdits_congr {e e' : Element} (h : e.tag = e'.tag) (content : Bytes) (stop : Nat) :
    tagEdits content e dropped added stop = tagEdits content e' dropped added stop := by
  have hpos : e.attributePos = e'.attributePos := by
    simp only [Element.attributePos, Element.attrs, Element.startTag, Element.name, h]
  simp only [tagEdits, hpos, Element.startTag, h]

/-- The outline of a tree in which one start tag is changed. -/
theorem outline_reopen {plan : Place → Patch} {opening : Opening} {pos : Nat} {above : List Element} {p : Nat}
    (start : Nat) (before : Bytes) (hp : start + before.length = p)
    (hplan : s.Each (fun x => if x.pos = pos then ∃ edits, plan x.place = .retag edits ∧
      openingOf edits.target x.selfClosing = opening else plan x.place = .keep) above p) :
    (s.patch plan above p).outline before = (s.outline before).reopen pos opening start := by
  induction s generalizing above p start before with
  | nil => rfl
  | gap g next ih => exact ih start _ (by rw [List.length_append]; omega) hplan
  | element tag selfClosing inner close next ih1 ih2 =>
    obtain ⟨hself, hinner, hnext⟩ := hplan
    have h1 := ih1 (p + tag.length) [] rfl hinner
    have h2 := ih2 (p + tag.length + inner.size + (close.getD []).length) [] rfl hnext
    have hsize : (inner.outline []).render.length = inner.size := by
      rw [Source.render_outline, List.nil_append, Source.length_render]
    rw [Source.patch, Source.outline, Outline.reopen]
    dsimp only [openingOf]
    rw [hp, hsize, ← h1, ← h2]
    by_cases hpos : p = pos
    · rw [if_pos hpos] at hself ⊢
      obtain ⟨edits, hplan, rfl⟩ := hself
      rw [show plan ⟨Source.node p tag selfClosing inner close, above⟩ = .retag edits from hplan]
      rfl
    · rw [if_neg hpos] at hself ⊢
      rw [show plan ⟨Source.node p tag selfClosing inner close, above⟩ = .keep from hself]
      rfl

/-- Edits that leave a start tag of the same name change that tag and nothing else. -/
theorem outline_retag (path : Bytes) (hs : Reading d s) (hy : y.In d.content) (hplace : y.place ∈ d.places)
    (hdrop : dropped.Sublist y.element.attrs) (hadd : ∀ text ∈ added, text ≠ [])
    (htag : IsStartTag (tagEdits d.content y.element dropped added y.element.startTag.stop).target y.selfClosing)
    (hname : startTagName (tagEdits d.content y.element dropped added y.element.startTag.stop).target = y.name) :
    ∃ updated d', applyChanges d.content (retagChanges d.content y.element dropped added) = .ok updated ∧
      Document.parse path updated = .ok d' ∧
      d'.outline = d.reopen y.element
        (openingOf (tagEdits d.content y.element dropped added y.element.startTag.stop).target y.selfClosing) := by
  have hcarries := retag_carries hs hy hplace hdrop hadd
  have hsame {x : Spot} (hx : x.In d.content) (hpos : x.pos = y.pos) :
      tagEdits d.content x.element dropped added x.element.startTag.stop =
        tagEdits d.content y.element dropped added y.element.startTag.stop := by
    obtain ⟨htag, -, -⟩ := tag_of_start hx hy hpos
    rw [tagEdits_congr htag, Element.startTag, htag, ← Element.startTag]
  have hwell := hs.wellFormed_patch hcarries fun x hx _ => by
    unfold retagPlan
    split
    · next hpos =>
      obtain ⟨-, hself, hraw⟩ := tag_of_start hx hy hpos
      refine ⟨?_, ?_⟩
      · rw [show x.place.element = x.element from rfl, hsame hx hpos, hself]
        exact htag
      · rw [show x.place.element = x.element from rfl, hsame hx hpos, Spot.name, hraw]
        exact hname
    · trivial
  refine ⟨_, _, hcarries.apply, hwell.parse_render path, ?_⟩
  rw [Source.outline_of_wellFormed hwell rfl, Document.reopen, hs.outline]
  refine outline_reopen 0 [] rfl (hs.wellFormed.each fun x hx _ => ?_)
  rw [hs.content] at hx
  split
  · next hpos =>
    obtain ⟨-, hself, -⟩ := tag_of_start hx hy hpos
    refine ⟨_, if_pos hpos, ?_⟩
    rw [show x.place.element = x.element from rfl, hsame hx hpos, hself]
  · next hpos => exact if_neg hpos

end Retag

/-- The element of a place, as it stands in the content. -/
theorem Reading.exists_spot_in (hs : Reading d s) {place : Place} (hplace : place ∈ d.places) :
    ∃ y : Spot, y.place = place ∧ y.In d.content := by
  have hin : s.Each (Spot.In · d.content) [] 0 := hs.wellFormed.each fun x hx _ => hs.content ▸ hx
  rw [Document.places, ← hs.roots] at hplace
  exact hin.exists_spot hplace

/-- The other start tag is one of the outline. -/
theorem of_every_reopen {P : Opening → Prop} {pos : Nat} {opening : Opening} {above : List Element} {p : Nat}
    (start : Nat) (before : Bytes) (hp : start + before.length = p) {place : Place}
    (hplace : place ∈ Element.placesIn above (s.build p))
    (hpos : place.element.startTag.start = pos) (h : ((s.outline before).reopen pos opening start).Every P) : P opening := by
  induction s generalizing above p start before with
  | nil => simp [Source.build, Element.placesIn] at hplace
  | gap g next ih => exact ih start _ (by rw [List.length_append]; omega) hplace h
  | element tag selfClosing inner close next ih1 ih2 =>
    have hsize : (inner.outline []).render.length = inner.size := by
      rw [Source.render_outline, List.nil_append, Source.length_render]
    rw [Source.outline, Outline.reopen] at h
    dsimp only [openingOf] at h
    rw [hp, hsize] at h
    obtain ⟨hself, hinner, hnext⟩ := h
    rcases Source.mem_placesIn_element.mp hplace with rfl | hplace | hplace
    · rw [if_pos (show p = pos from hpos)] at hself
      exact hself
    · exact ih1 _ [] rfl hplace hinner
    · exact ih2 _ [] rfl hplace hnext

/-- The start tag of an element of a document is read from its bytes. -/
theorem readAlone_of_outline_eq {path updated : Bytes} {d' : Document} (hs : Reading d s) {place : Place}
    (hplace : place ∈ d.places) (hparse : Document.parse path updated = .ok d') {opening : Opening}
    (h : d'.outline = d.reopen place.element opening) : ReadAlone opening := by
  obtain ⟨s', hs', -⟩ := exists_reading hparse
  have hevery := Source.every_outline (hs'.wellFormed.each fun x hx _ => hx.start) []
  rw [← hs'.outline, h, Document.reopen, hs.outline] at hevery
  rw [Document.places, ← hs.roots] at hplace
  exact of_every_reopen 0 [] rfl hplace rfl hevery

theorem slice_front {x : Spot} {content used back : Bytes} (hx : x.In content) (h : x.tag = used ++ back) :
    content.slice x.pos (x.pos + used.length) = used := by
  rw [hx.slice_take (by simp [h]), h, List.take_left]

theorem slice_back {x : Spot} {content used back : Bytes} (hx : x.In content) (h : x.tag = used ++ back) :
    content.slice (x.pos + used.length) (x.pos + x.tag.length) = back := by
  have hall : content.slice x.pos (x.pos + used.length) ++ content.slice (x.pos + used.length) (x.pos + x.tag.length) =
      content.slice x.pos (x.pos + x.tag.length) := by
    refine slice_join (by omega) ?_ hx.stop_le
    rw [h, List.length_append]
    omega
  rw [slice_front hx h, hx.slice_tag] at hall
  exact List.append_cancel_left (hall.trans h)

theorem keys_of_forms {e : Element} {forms : List ((Bytes × Bytes) × Option UInt8 × Bool)}
    (h : e.attrs.map Attribute.form = forms) : e.keys = forms.map Prod.fst := by
  rw [← h, List.map_map]
  rfl

section Check

variable {path content : Bytes}

theorem eq_ok_of_toOption {ε α : Type} {r : Except ε α} {a : α} (h : r.toOption = some a) : r = .ok a := by
  cases r with
  | error e => cases h
  | ok b => rw [Option.some.inj h]

/-- An element of a content passes a check, and the content parses. -/
theorem exists_place_of_check {n : Nat} {check : Place → Bool}
    (h : (Document.parse path content).toOption.any (fun d => d.places[n]?.any check) = true) :
    ∃ d place, Document.parse path content = .ok d ∧ place ∈ d.places ∧ check place = true := by
  obtain ⟨d, hparse, hd⟩ := (Option.any_eq_true ..).mp h
  obtain ⟨place, hplace, hcheck⟩ := (Option.any_eq_true ..).mp hd
  exact ⟨d, place, eq_ok_of_toOption hparse, List.mem_of_getElem? hplace, hcheck⟩

end Check

section Insert

variable {path content : Bytes} {place : Place} {name value : Bytes}

/-- The start tag of an element with another attribute behind the last. -/
def insertedTag (content : Bytes) (e : Element) (text : Bytes) : Bytes :=
  content.slice e.startTag.start e.attributePos ++ (text ++ content.slice e.attributePos e.startTag.stop)

/-- An attribute is added to an element and nothing else changes, unless the last attribute is an equals sign without a
value: that takes the new one for its value. -/
theorem insert_attribute_iff (hparse : Document.parse path content = .ok d) (hplace : place ∈ d.places)
    (hname : ∀ b ∈ name, Bytes.isLetter b = true) (hne : name ≠ []) (hvalue : 34 ∉ value) :
    (∃ updated d', applyChanges content [.insert place.element.attributePos (addedAttribute name value)] = .ok updated ∧
        Document.parse path updated = .ok d' ∧
        d'.outline = d.reopen place.element
          ⟨insertedTag content place.element (addedAttribute name value), place.element.name,
            place.element.keys ++ [(name, value)], place.element.selfClosing⟩ ∧
        (Element.ofTag (insertedTag content place.element (addedAttribute name value))).attrs.map Attribute.form =
          place.element.attrs.map Attribute.form ++ [((name, value), some 34, true)]) ↔
      ∀ last ∈ place.element.attrs.getLast?, last.unassigned = false := by
  obtain ⟨s, hs, rfl⟩ := exists_reading hparse
  obtain ⟨y, rfl, hy⟩ := hs.exists_spot_in hplace
  obtain ⟨front, rest, hparted⟩ := hy.start.exists_parted (p := y.pos) y.inner y.close (List.append_nil _).symm
  have hpos : y.element.attributePos = y.pos + (60 :: (startTagName y.tag ++ front)).length := by
    have h := hparted.attributePos y.inner y.close rfl
    rw [List.length_cons]
    rw [show y.element.attributePos = _ from h]
    omega
  have hraw : insertedTag d.content y.element (addedAttribute name value) =
      60 :: (startTagName y.tag ++ front ++ (addedAttribute name value ++ rest)) := by
    have hstart : y.element.startTag.start = y.pos := rfl
    have hstop : y.element.startTag.stop = y.pos + y.tag.length := rfl
    rw [insertedTag, hpos, hstart, hstop, slice_front hy hparted.tag_eq, slice_back hy hparted.tag_eq]
    simp
  have htarget : (tagEdits d.content y.element [] (some (addedAttribute name value)) y.element.startTag.stop).target =
      insertedTag d.content y.element (addedAttribute name value) := by
    simp [tagEdits, cutOut, insertedTag, Change.insert]
  rw [hraw] at htarget
  have hkeys : y.element.keys = y.element.attrs.map Attribute.key := rfl
  rw [show y.place.element = y.element from rfl, hraw, hkeys]
  constructor
  · rintro ⟨updated, d', -, hparse', houtline, -⟩ last hlast
    rw [Bool.eq_false_iff]
    intro hun
    have hread := (readAlone_of_outline_eq hs hplace hparse' houtline).2
    exact hparted.inserted_unassigned hname hne hlast hun (congrArg Opening.attrs hread).symm
  · intro hlast
    obtain ⟨htag, hname', hforms⟩ := hparted.inserted hname hne hvalue hlast
    have hadd : ∀ text ∈ some (addedAttribute name value), text ≠ [] := by
      rintro text ⟨⟩
      simp [addedAttribute_eq]
    obtain ⟨updated, d', happly, hparse', houtline⟩ := outline_retag path hs hy hplace (List.nil_sublist _) hadd
      (by rw [htarget]; exact htag) (by rw [htarget]; exact hname')
    refine ⟨updated, d', happly, hparse', ?_, hforms⟩
    have hkeys' := keys_of_forms hforms
    rw [List.map_append, List.map_map] at hkeys'
    have hnode : y.element.name = startTagName y.tag := Source.name_node ..
    rw [houtline, htarget, openingOf, hname', hkeys', hnode]
    rfl

/-- Behind a value without quotes, in front of a blank. -/
theorem insert_attribute_unquoted :
    ∃ d d' place, Document.parse "a.html" "<p><igx-tabs b type=fixed ><li></igx-tabs>" = .ok d ∧ place ∈ d.places ∧
      place.element.keys = [(bytes "b", bytes ""), (bytes "type", bytes "fixed")] ∧
      applyChanges "<p><igx-tabs b type=fixed ><li></igx-tabs>"
        [.insert place.element.attributePos (addedAttribute "tabAlignment" "justify")] =
          .ok (bytes "<p><igx-tabs b type=fixed tabAlignment=\"justify\" ><li></igx-tabs>") ∧
      Document.parse "a.html" "<p><igx-tabs b type=fixed tabAlignment=\"justify\" ><li></igx-tabs>" = .ok d' ∧
      d'.outline = d.reopen place.element ⟨"<igx-tabs b type=fixed tabAlignment=\"justify\" >", "igx-tabs",
        [(bytes "b", bytes ""), (bytes "type", bytes "fixed"), (bytes "tabAlignment", bytes "justify")], false⟩ := by
  generalize htext : bytes "<p><igx-tabs b type=fixed ><li></igx-tabs>" = text
  have hcheck : (Document.parse "a.html" text).toOption.any (fun d => d.places[1]?.any fun place : Place =>
      place.element.attrs.getLast?.all (!·.unassigned) && place.element.name == bytes "igx-tabs" &&
        place.element.keys == [(bytes "b", bytes ""), (bytes "type", bytes "fixed")] && place.element.selfClosing == false &&
        insertedTag text place.element (addedAttribute "tabAlignment" "justify") ==
          bytes "<igx-tabs b type=fixed tabAlignment=\"justify\" >" &&
        (applyChanges text [.insert place.element.attributePos (addedAttribute "tabAlignment" "justify")]).toOption ==
          some (bytes "<p><igx-tabs b type=fixed tabAlignment=\"justify\" ><li></igx-tabs>")) = true := by
    rw [← htext]
    repeat rw [bytes_ofList]
    decide +kernel
  obtain ⟨d, place, hparse, hmem, hplace⟩ := exists_place_of_check hcheck
  simp only [Bool.and_eq_true, beq_iff_eq] at hplace
  obtain ⟨⟨⟨⟨⟨hlast, hname⟩, hkeys⟩, hself⟩, hraw⟩, hupdated⟩ := hplace
  have hletters : ∀ b ∈ bytes "tabAlignment", Bytes.isLetter b = true := by decide
  have hquote : 34 ∉ bytes "justify" := by decide
  obtain ⟨updated, d', happly, hparse', houtline, -⟩ :=
    (insert_attribute_iff hparse hmem hletters (by decide) hquote).mpr (by simpa [Option.all_eq_true] using hlast)
  obtain rfl : updated = _ := Except.ok.inj (happly.symm.trans (eq_ok_of_toOption hupdated))
  rw [hname, hkeys, hself, hraw] at houtline
  exact ⟨d, d', place, hparse, hmem, hkeys, happly, hparse', houtline⟩

/-- Behind an equals sign the added attribute becomes a value. -/
theorem insert_attribute_swallowed :
    ∃ d d' place, Document.parse "a.html" "<igx-tabs class=></igx-tabs>" = .ok d ∧ place ∈ d.places ∧
      place.element.keys = [(bytes "class", bytes "")] ∧
      applyChanges "<igx-tabs class=></igx-tabs>"
        [.insert place.element.attributePos (addedAttribute "tabAlignment" "justify")] =
          .ok (bytes "<igx-tabs class= tabAlignment=\"justify\"></igx-tabs>") ∧
      Document.parse "a.html" "<igx-tabs class= tabAlignment=\"justify\"></igx-tabs>" = .ok d' ∧
      d'.places.map (·.element.keys) = [[(bytes "class", bytes "tabAlignment=\"justify\"")]] := by
  generalize htext : bytes "<igx-tabs class=></igx-tabs>" = text
  generalize htext' : bytes "<igx-tabs class= tabAlignment=\"justify\"></igx-tabs>" = text'
  have hcheck : (Document.parse "a.html" text).toOption.any (fun d => d.places[0]?.any fun place : Place =>
      place.element.keys == [(bytes "class", bytes "")] &&
        (applyChanges text [.insert place.element.attributePos (addedAttribute "tabAlignment" "justify")]).toOption ==
          some text') = true := by
    rw [← htext, ← htext']
    repeat rw [bytes_ofList]
    decide +kernel
  have hcheck' : (Document.parse "a.html" text').toOption.map (·.places.map (·.element.keys)) =
      some [[(bytes "class", bytes "tabAlignment=\"justify\"")]] := by
    rw [← htext']
    repeat rw [bytes_ofList]
    decide +kernel
  obtain ⟨d, place, hparse, hmem, hplace⟩ := exists_place_of_check hcheck
  simp only [Bool.and_eq_true, beq_iff_eq] at hplace
  obtain ⟨d', hparse', hkeys'⟩ := Option.map_eq_some_iff.mp hcheck'
  exact ⟨d, d', place, hparse, hmem, hplace.1, eq_ok_of_toOption hplace.2, eq_ok_of_toOption hparse', hkeys'⟩

end Insert

section Remove

variable {path content : Bytes} {place : Place} {a : Attribute}

/-- The start tag up to the white space in front of an attribute. -/
def tagBefore (content : Bytes) (e : Element) (a : Attribute) : Bytes :=
  content.slice e.startTag.start (a.removalSpan content).start

/-- The start tag behind an attribute. -/
def tagAfter (content : Bytes) (e : Element) (a : Attribute) : Bytes := content.slice a.span.stop e.startTag.stop

theorem removalSpan_start {content used blank : Bytes} (htake : content.take a.span.start = used ++ blank)
    (hlen : a.span.start = used.length + blank.length) (hblank : ∀ b ∈ blank, isSpace b = true)
    (hused : ∀ b ∈ used.getLast?, isSpace b = false) : (a.removalSpan content).start = used.length := by
  have hnil : used.reverse.takeWhile isSpace = [] := by
    cases hu : used.reverse with
    | nil => rfl
    | cons b r =>
      have hb := hused b (by rw [← List.head?_reverse, hu]; rfl)
      rw [List.takeWhile_cons_of_neg (by simp [hb])]
  rw [Attribute.removalSpan, htake, List.reverse_append,
    List.takeWhile_append_of_pos fun b hb => hblank b (List.mem_reverse.mp hb), hnil]
  simp [hlen]

/-- The two parts of a start tag around one of its attributes. -/
theorem tag_parts {y : Spot} {content front kept blank r back : Bytes} {x : UInt8} {attrs others : List Attribute}
    (hy : y.In content)
    (h : Around y.pos y.tag y.selfClosing attrs a others front kept blank x r back) :
    tagBefore content y.element a = 60 :: (startTagName y.tag ++ (front ++ kept)) ∧
      tagAfter content y.element a = back := by
  have htag := h.tag_eq
  have hlast := h.last
  obtain ⟨hstart, hstop⟩ := h.span
  have hlen : (60 :: (startTagName y.tag ++ (front ++ kept))).length =
      (startTagName y.tag ++ (front ++ kept)).length + 1 := rfl
  generalize startTagName y.tag ++ (front ++ kept) = used at htag hlast hstart hstop hlen ⊢
  have hremoval : (a.removalSpan content).start = y.pos + (60 :: used).length := by
    obtain ⟨pre, post, hpre, hcontent⟩ := hy.split
    have htake : content.take a.span.start = (pre ++ 60 :: used) ++ blank := by
      have hsplit : content = (pre ++ 60 :: used ++ blank) ++ (x :: r ++ back ++
          (render y.inner.pieces ++ (y.close.getD [] ++ post))) := by
        rw [hcontent, htag]
        simp
      rw [hsplit]
      refine List.take_left' ?_
      simp only [List.length_append, List.length_cons, hstart]
      omega
    have hstart' := removalSpan_start htake (by rw [List.length_append]; omega) h.blank (by
      rw [List.getLast?_append_of_ne_nil _ (by simp)]
      exact hlast)
    rw [hstart', List.length_append]
    omega
  constructor
  · rw [tagBefore, hremoval]
    exact slice_front hy htag
  · have hback : y.tag = (60 :: used ++ blank ++ x :: r) ++ back := by
      rw [htag]
      simp
    have hpos : a.span.stop = y.pos + (60 :: used ++ blank ++ x :: r).length := by
      simp only [List.length_append, List.length_cons] at hstop ⊢
      omega
    rw [tagAfter, hpos]
    exact slice_back hy hback

theorem target_removed {y : Spot} {content : Bytes} (hy : y.In content) (ha : a ∈ y.element.attrs) :
    (tagEdits content y.element [a] none y.element.startTag.stop).target =
      tagBefore content y.element a ++ tagAfter content y.element a := by
  obtain ⟨used, breaks, h⟩ := hy.attributes
  have hlen := h.length
  have hpos := h.pos
  have hstop : y.element.startTag.stop = y.pos + y.tag.length := rfl
  have hjoin : content.slice a.span.stop y.element.attributePos ++
      content.slice y.element.attributePos y.element.startTag.stop = content.slice a.span.stop y.element.startTag.stop :=
    slice_join (h.before a ha) (by omega) (hstop ▸ hy.stop_le)
  simp [tagEdits, cutOut, Change.deleteSpan, Change.replaceSpan, Change.replace, tagBefore, tagAfter, ← hjoin]

/-- An attribute is taken out of an element and nothing else changes, just when the two parts of the start tag are kept
apart without it. -/
theorem remove_attribute_iff (hparse : Document.parse path content = .ok d) (hplace : place ∈ d.places)
    (ha : a ∈ place.element.attrs) :
    (∃ updated d', applyChanges content [.deleteSpan content (a.removalSpan content)] = .ok updated ∧
        Document.parse path updated = .ok d' ∧
        d'.outline = d.reopen place.element
          ⟨tagBefore content place.element a ++ tagAfter content place.element a, place.element.name,
            (place.element.attrs.erase a).map Attribute.key, place.element.selfClosing⟩ ∧
        (Element.ofTag (tagBefore content place.element a ++ tagAfter content place.element a)).attrs.map Attribute.form =
          (place.element.attrs.erase a).map Attribute.form) ↔
      (TagState.name.run ((tagBefore content place.element a).drop 1)).apart (tagAfter content place.element a) = true := by
  obtain ⟨s, hs, rfl⟩ := exists_reading hparse
  obtain ⟨y, rfl, hy⟩ := hs.exists_spot_in hplace
  obtain ⟨attrs, others, hattrs, hnew⟩ := List.eq_append_cons_of_mem ha
  obtain ⟨front, rest, hparted⟩ := hy.start.exists_parted (p := y.pos) y.inner y.close hattrs
  obtain ⟨kept, blank, x, r, back, haround⟩ := hparted.exists_around
  obtain ⟨hbefore, hafter⟩ := tag_parts hy haround
  have herase : y.element.attrs.erase a = attrs ++ others := by
    rw [show y.element.attrs = attrs ++ a :: others from hattrs, List.erase_append_right _ hnew, List.erase_cons_head]
  have hraw : 60 :: (startTagName y.tag ++ (front ++ kept)) ++ back =
      60 :: (startTagName y.tag ++ (front ++ kept ++ back)) := by simp
  have hname : y.element.name = startTagName y.tag := Source.name_node ..
  rw [show y.place.element = y.element from rfl, hbefore, hafter, hraw, herase, hname]
  constructor
  · rintro ⟨updated, d', -, hparse', houtline, hforms⟩
    obtain ⟨htag, hopening⟩ := readAlone_of_outline_eq hs hplace hparse' houtline
    by_contra hapart
    exact haround.joined (by simpa using hapart) htag (congrArg Opening.name hopening).symm hforms
  · intro hapart
    obtain ⟨htag, hname', hforms⟩ := haround.removed hapart
    have htarget : (tagEdits d.content y.element [a] none y.element.startTag.stop).target =
        60 :: (startTagName y.tag ++ (front ++ kept ++ back)) := by
      rw [target_removed hy ha, hbefore, hafter, hraw]
    have hdrop : [a].Sublist y.element.attrs := List.singleton_sublist.mpr ha
    have hadd : ∀ text ∈ (none : Option Bytes), text ≠ [] := by simp
    obtain ⟨updated, d', happly, hparse', houtline⟩ := outline_retag path hs hy hplace hdrop hadd
      (by rw [htarget]; exact htag) (by rw [htarget]; exact hname')
    refine ⟨updated, d', happly, hparse', ?_, hforms⟩
    have hkeys := keys_of_forms hforms
    rw [List.map_map] at hkeys
    rw [houtline, htarget, openingOf, hname', hkeys]
    rfl

/-- A name, a blank, an equals sign, a blank and a value in front of a slash, behind a value in quotes. -/
theorem remove_attribute_quoted :
    ∃ d d' place, ∃ a ∈ place.element.attrs,
      Document.parse "a.html" "<p><igx-date-picker class='w' mode = \"dropdown\"/></p>" = .ok d ∧ place ∈ d.places ∧
      a.key = (bytes "mode", bytes "dropdown") ∧
      applyChanges "<p><igx-date-picker class='w' mode = \"dropdown\"/></p>"
        [.deleteSpan "<p><igx-date-picker class='w' mode = \"dropdown\"/></p>"
          (a.removalSpan "<p><igx-date-picker class='w' mode = \"dropdown\"/></p>")] =
          .ok (bytes "<p><igx-date-picker class='w'/></p>") ∧
      Document.parse "a.html" "<p><igx-date-picker class='w'/></p>" = .ok d' ∧
      d'.outline = d.reopen place.element ⟨"<igx-date-picker class='w'/>", "igx-date-picker", [(bytes "class", bytes "w")], true⟩ := by
  generalize htext : bytes "<p><igx-date-picker class='w' mode = \"dropdown\"/></p>" = text
  have hcheck : (Document.parse "a.html" text).toOption.any (fun d => d.places[1]?.any fun place : Place =>
      place.element.attrs[1]?.any fun a : Attribute =>
        (TagState.name.run ((tagBefore text place.element a).drop 1)).apart (tagAfter text place.element a) &&
        a.key == (bytes "mode", bytes "dropdown") && place.element.name == bytes "igx-date-picker" &&
        (place.element.attrs.erase a).map Attribute.key == [(bytes "class", bytes "w")] &&
        place.element.selfClosing == true &&
        tagBefore text place.element a ++ tagAfter text place.element a == bytes "<igx-date-picker class='w'/>" &&
        (applyChanges text [.deleteSpan text (a.removalSpan text)]).toOption ==
          some (bytes "<p><igx-date-picker class='w'/></p>")) = true := by
    rw [← htext]
    repeat rw [bytes_ofList]
    decide +kernel
  obtain ⟨d, place, hparse, hmem, hplace⟩ := exists_place_of_check hcheck
  obtain ⟨a, hattr, ha⟩ := (Option.any_eq_true ..).mp hplace
  simp only [Bool.and_eq_true, beq_iff_eq] at ha
  obtain ⟨⟨⟨⟨⟨⟨hapart, hkey⟩, hname⟩, hkeys⟩, hself⟩, hraw⟩, hupdated⟩ := ha
  have hin := List.mem_of_getElem? hattr
  obtain ⟨updated, d', happly, hparse', houtline, -⟩ := (remove_attribute_iff hparse hmem hin).mpr hapart
  obtain rfl : updated = _ := Except.ok.inj (happly.symm.trans (eq_ok_of_toOption hupdated))
  rw [hname, hkeys, hself, hraw] at houtline
  exact ⟨d, d', place, a, hin, hparse, hmem, hkey, happly, hparse', houtline⟩

/-- The slash that closed the element becomes part of the value in front of it. -/
theorem remove_attribute_joined :
    ∃ d place, ∃ a ∈ place.element.attrs,
      Document.parse "a.html" "<igx-date-picker class=wide mode=\"dropdown\"/>" = .ok d ∧ place ∈ d.places ∧
      a.key = (bytes "mode", bytes "dropdown") ∧ place.element.selfClosing = true ∧
      applyChanges "<igx-date-picker class=wide mode=\"dropdown\"/>"
        [.deleteSpan "<igx-date-picker class=wide mode=\"dropdown\"/>"
          (a.removalSpan "<igx-date-picker class=wide mode=\"dropdown\"/>")] = .ok (bytes "<igx-date-picker class=wide/>") ∧
      ∀ d', Document.parse "a.html" "<igx-date-picker class=wide/>" ≠ .ok d' := by
  generalize htext : bytes "<igx-date-picker class=wide mode=\"dropdown\"/>" = text
  have hcheck : (Document.parse "a.html" text).toOption.any (fun d => d.places[0]?.any fun place : Place =>
      place.element.attrs[1]?.any fun a : Attribute =>
        a.key == (bytes "mode", bytes "dropdown") && place.element.selfClosing == true &&
        (applyChanges text [.deleteSpan text (a.removalSpan text)]).toOption ==
          some (bytes "<igx-date-picker class=wide/>")) = true := by
    rw [← htext]
    repeat rw [bytes_ofList]
    decide +kernel
  have hfail : (Document.parse "a.html" "<igx-date-picker class=wide/>").toOption.isNone = true := by
    repeat rw [bytes_ofList]
    decide +kernel
  obtain ⟨d, place, hparse, hmem, hplace⟩ := exists_place_of_check hcheck
  obtain ⟨a, hattr, ha⟩ := (Option.any_eq_true ..).mp hplace
  simp only [Bool.and_eq_true, beq_iff_eq] at ha
  obtain ⟨⟨hkey, hself⟩, hupdated⟩ := ha
  refine ⟨d, place, a, List.mem_of_getElem? hattr, hparse, hmem, hkey, hself, eq_ok_of_toOption hupdated, ?_⟩
  intro d' hd
  rw [hd] at hfail
  cases hfail

end Remove

end Codemod.Release12
