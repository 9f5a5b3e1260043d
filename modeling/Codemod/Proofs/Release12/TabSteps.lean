import Codemod.Proofs.Release12.Lasting
import Codemod.Proofs.Release12.Warning

namespace Codemod.Release12

open Edit Markup

section Tree

variable {d : Document} {s : Source}

theorem Reading.each (hs : Reading d s) {P : Spot → Prop}
    (h : ∀ x : Spot, x.In d.content → x.place ∈ d.places → P x) : s.Each P [] 0 := by
  refine hs.wellFormed.each fun x hx hplace => h x (hs.content ▸ hx) ?_
  rw [Document.places, ← hs.roots]
  exact hplace

theorem AllBracketed.of_wellFormed (hs : s.WellFormed) : TemplateRule.AllBracketed s := by
  refine Source.every_of_each (hs.each fun x hx _ => ⟨hx.start.bracketed, fun c hc => ?_⟩)
  exact (hx.stop c hc).1.bracketed

theorem isItem_place {f : Family} {x : Spot} (h : f.Has x.tag) : f.isItem x.place.element = true := by
  rw [Family.isItem, Element.named, name_place]
  exact List.elem_iff.mpr h

end Tree

/-- What a rule makes of a tree. -/
structure TemplateRule.Step (r : TemplateRule) (s s' : Source) : Prop where
  wellFormed : s'.WellFormed
  evolves : Source.Evolves r.growth s s'
  done : r.Done s'
  warned : ∀ editor ∈ editors, (inputs editor).spares r = true → Warned editor false [] s → Warned editor false [] s'

section Alignment

variable {d : Document} {s : Source}

/-- The start tag of tabs that get an alignment. -/
def alignedTag (d : Document) (e : Element) (alignment : Bytes) : Bytes :=
  (tagEdits d.content e [] (some (alignmentAttribute alignment)) e.startTag.stop).target

theorem infix_alignedTag {x : Spot} (hx : x.In d.content) {w : Bytes} (hw : Word w) (alignment : Bytes)
    (h : w <:+: x.tag) : w <:+: alignedTag d x.place.element alignment := by
  obtain ⟨used, breaks, hcut⟩ := hx.attributes
  have hstop : x.element.startTag.stop = x.element.attributePos + (breaks.length + 1) := by
    have htag := hcut.length
    have hpos := hcut.pos
    have : x.element.startTag.stop = x.pos + x.tag.length := rfl
    omega
  have htarget : alignedTag d x.place.element alignment =
      60 :: (used ++ (alignmentAttribute alignment ++ (breaks ++ [62]))) := by
    have hall : (breaks ++ [62]).take (breaks.length + 1) = breaks ++ [62] := List.take_of_length_le (by simp)
    have hedits : (tagEdits d.content x.element [] (some (alignmentAttribute alignment))
        (x.element.attributePos + (breaks.length + 1))).target = _ := target_tagEdits_nil hx hcut (Nat.le_refl _)
    rw [← hstop, hall] at hedits
    exact hedits
  have hbreak : ∀ b ∈ (breaks ++ [62]).head?, b ∉ w := by
    intro b hb hmem
    have hin : b ∈ breaks ++ [62] := List.mem_of_mem_head? hb
    rcases List.mem_append.mp hin with hin | hin
    · have := hcut.cut.breaks b hin
      rw [hw.noBreak b hmem] at this
      cases this
    · have := (hw.plain b hmem).1
      rw [List.mem_singleton.mp hin] at this
      cases this
  rw [hcut.cut.split, show 60 :: (used ++ (breaks ++ [62])) = (60 :: used) ++ (breaks ++ [62]) from rfl] at h
  rw [htarget]
  rcases infix_append_of_cut hw.nonempty (Or.inl hbreak) h with h | h
  · exact infix_within h [] (alignmentAttribute alignment ++ (breaks ++ [62])) rfl
  · exact infix_within h (60 :: (used ++ alignmentAttribute alignment)) [] (by simp)

theorem newAlignment?_eq_none {e : Element} (h : e.hasAttribute (attributeNames "tabAlignment") = true) :
    newAlignment? e = none := by
  unfold newAlignment?
  cases e.attribute? (attributeNames (bytes "type")) with
  | none => rfl
  | some type => simp [h]

theorem alignment_step (hs : Reading d s)
    (hexact : ∀ e ∈ d.find (Element.named [bytes tabs.component]), ∀ a ∈ newAlignment? e,
      (Element.ofTag (alignedTag d e a)).hasAttribute (attributeNames "tabAlignment") = true) :
    TemplateRule.alignment.Step s (s.patch (alignmentPlan d) [] 0) := by
  have hcarries := alignTabs_carries hs
  have hin : s.Each (Spot.In · d.content) [] 0 := hs.each fun x hx _ => hx
  have hsound : s.Each (fun x => (alignmentPlan d x.place).Sound x) [] 0 := hs.each fun x hx _ => alignmentPlan_sound hx
  refine ⟨hs.wellFormed_patch hcarries fun x hx _ => alignmentPlan_sound hx, ?_, ?_, ?_⟩
  · refine Source.evolves_patch hin hsound (hs.each fun x hx _ => ?_)
    unfold alignmentPlan
    split
    · next hnamed =>
      split
      · next a ha =>
        have hname : x.name = bytes tabs.component := List.mem_singleton.mp (name_of_named hnamed)
        refine ⟨List.mem_singleton.mpr hname, trivial, fun f hf hmention => ?_⟩
        have hkept := infix_alignedTag hx (TemplateRule.panelTag_word hf) a hmention
        exact hkept.trans (List.prefix_append _ _).isInfix
      · trivial
    · trivial
  · refine Source.every_patch hin (hs.each fun x hx hplace => ?_)
    unfold alignmentPlan
    split
    · next hnamed =>
      split
      · next a ha =>
        exact fun _ => newAlignment?_eq_none (hexact _ (mem_find hplace hnamed) a ha)
      · next hnone =>
        intro _
        rw [← hnone]
        exact (newAlignment?_congr (keys_place x)).symm
    · next hnamed =>
      intro hname
      refine absurd ?_ hnamed
      rw [Element.named, name_place]
      exact List.elem_iff.mpr (List.mem_singleton.mpr hname)
  · intro editor _ hspares
    cases hspares

end Alignment

section Wrap

variable {d : Document} {s : Source} {f : Family}

/-- Inside an item every template of a tab becomes a header. -/
theorem every_wrapped (hf : f ∈ families) {above : List Element} {p : Nat} (hin : s.Each (Spot.In · d.content) above p)
    (habove : above.any f.isItem = true) :
    (s.patch (wrapPlan f) above p).Every fun t _ _ => isTabTemplate (Element.ofTag t) = false := by
  obtain ⟨hheader, -⟩ := TemplateRule.tags_apart hf
  have hmeets : s.Each (fun x => x.above.any f.isItem = true) above p := by
    clear hin
    induction s generalizing above p with
    | nil => trivial
    | gap g next ih => exact ih habove
    | element tag selfClosing inner close next ih1 ih2 =>
      exact ⟨habove, ih1 (by rw [List.any_cons, habove, Bool.or_true]), ih2 habove⟩
  refine Source.every_patch hin (hmeets.imp fun x hx => ?_)
  unfold wrapPlan
  split
  · refine TemplateRule.isTabTemplate_eq_false ?_
    rw [(header_ordinary hf).2.startTagName]
    exact hheader
  · next hnot =>
    have htab : isTabTemplate x.place.element = false := by
      rw [Bool.eq_false_iff]
      exact fun htab => hnot (Bool.and_eq_true_iff.mpr ⟨htab, hx⟩)
    exact (isTabTemplate_congr (name_place_ofTag x) (keys_place x)).symm.trans htab

theorem wrap_step (hs : Reading d s) (hf : f ∈ families) :
    (TemplateRule.wrap f).Step s (s.patch (wrapPlan f) [] 0) := by
  have hcarries := wrapTemplates_carries hs f
  have hin : s.Each (Spot.In · d.content) [] 0 := hs.each fun x hx _ => hx
  refine ⟨hs.wellFormed_patch hcarries fun x _ _ => wrapPlan_sound hf x, ?_, ?_, ?_⟩
  · refine Source.evolves_patch hin (hs.each fun x _ _ => wrapPlan_sound hf x) (hs.each fun x hx _ => ?_)
    unfold wrapPlan
    split
    · next h =>
      have htab := isTabTemplate_congr (name_place_ofTag x) (keys_place x)
      exact ⟨⟨rfl, htab.symm.trans (Bool.and_eq_true_iff.mp h).1⟩, List.mem_singleton_self _⟩
    · trivial
  · have hinside := hin.and hin.inside
    refine Source.every_patch hin (hinside.imp fun x hx => ?_)
    unfold wrapPlan
    split
    · intro hitem
      obtain ⟨-, -, hheader, -⟩ := TemplateRule.tags_apart hf
      rw [Family.Has, (header_ordinary hf).2.startTagName] at hitem
      exact absurd hitem hheader
    · intro hitem
      refine every_wrapped hf hx.2 ?_
      have hself : f.isItem x.element = true := isItem_place hitem
      rw [List.any_cons, hself, Bool.true_or]
  · intro editor _ hspares
    cases hspares

end Wrap

section Headers

variable {d : Document} {s : Source} {f : Family} {x : Spot}

/-- A start tag that is opened for children loses at most its slash. -/
theorem openedTag_cases (hx : x.In d.content) (hclose : x.selfClosing = true ∨ x.close.isSome) :
    let opened := Patch.filledTag (tagEdits d.content x.place.element [] none (openStop x.place.element)) x.selfClosing
    opened = x.tag ∨ ∃ front, x.tag = front ++ bytes "/>" ∧ opened = front ++ bytes ">" := by
  intro opened
  have hsame : (tagEdits d.content x.place.element [] none (openStop x.place.element)).target =
      (tagEdits d.content x.place.element [] none (openStop x.place.element)).source := by
    simp [tagEdits, cutOut]
  have hbreak : render (Source.gap (.text [10]) .nil).pieces ≠ [] := by simp [Source.pieces, Gap.piece, Piece.raw]
  have hnone : ∀ text ∈ (none : Option Bytes), text ≠ [] := by simp
  have hfits := (fill_fits hx hclose (List.nil_sublist _) hnone hbreak).1
  cases hself : x.selfClosing with
  | true =>
    rw [if_pos hself] at hfits
    refine Or.inr ⟨_, hfits.symm, ?_⟩
    change Patch.filledTag _ x.selfClosing = _
    rw [hself, Patch.filledTag, if_pos rfl, hsame]
    rfl
  | false =>
    rw [if_neg (by rw [hself]; simp)] at hfits
    refine Or.inl ?_
    change Patch.filledTag _ x.selfClosing = _
    rw [hself, Patch.filledTag, if_neg (by simp), hsame]
    exact hfits.1

theorem infix_openedTag (hx : x.In d.content) (hclose : x.selfClosing = true ∨ x.close.isSome) {w : Bytes}
    (hw : Word w) (h : w <:+: x.tag) :
    w <:+: Patch.filledTag (tagEdits d.content x.place.element [] none (openStop x.place.element)) x.selfClosing := by
  rcases openedTag_cases hx hclose with hsame | ⟨front, htag, hopened⟩
  · rw [hsame]
    exact h
  · rw [hopened]
    have hslash (b : UInt8) (hb : b ∈ bytes "/>") : b ∉ w := by
      have hend : ∀ b ∈ bytes "/>", isKeyEnd b = true := List.all_eq_true.mp (by decide)
      intro hmem
      have := hend b hb
      rw [(hw.plain b hmem).1] at this
      cases this
    rw [htag] at h
    rcases infix_append_of_cut hw.nonempty (Or.inl fun b hb => hslash b (List.mem_of_mem_head? hb)) h with h | h
    · exact h.trans (List.prefix_append _ _).isInfix
    · obtain ⟨b, hb⟩ := List.exists_mem_of_ne_nil w hw.nonempty
      exact absurd hb (hslash b (h.subset hb))

theorem every_headerSource (hf : f ∈ families) {e : Element} (hplain : PlainHeader f e) :
    (headerSource f e).Every fun t _ _ => startTagName t ∈ (TemplateRule.headers f).adds := by
  obtain ⟨hicon, hlabel⟩ := wholeTag_openings hf
  have hmem₁ : startTagName (headerOpening f e) ∈ (TemplateRule.headers f).adds := by
    rw [hplain.opening.name]
    simp [TemplateRule.adds]
  have hmem₂ : startTagName (iconOpening f) ∈ (TemplateRule.headers f).adds := by
    rw [hicon.name]
    simp [TemplateRule.adds]
  have hmem₃ : startTagName (labelOpening f) ∈ (TemplateRule.headers f).adds := by
    rw [hlabel.name]
    simp [TemplateRule.adds]
  have htext (label : Option Attribute) : (label.elim Source.nil fun a => .gap (.text [10])
      (.tagged (labelOpening f) "span" (.gap (.text a.interpolated) .nil) (.gap (.text [10]) .nil))).Every
        fun t _ _ => startTagName t ∈ (TemplateRule.headers f).adds := by
    cases label with
    | none => trivial
    | some a => exact ⟨hmem₃, trivial, trivial⟩
  refine ⟨hmem₁, ?_, trivial⟩
  unfold headerContent
  dsimp only
  cases e.attribute? (attributeNames (bytes "icon")) with
  | none => exact htext _
  | some a => exact ⟨hmem₂, trivial, htext _⟩

theorem anyChild_headerSource {e : Element} (hplain : PlainHeader f e) :
    (headerSource f e).anyChild (isHeaderTag f) = true := by
  have hheader : isHeaderTag f (headerOpening f e) = true := decide_eq_true hplain.opening.name
  rw [headerSource, Source.tagged, Source.anyChild, Source.anyChild, hheader, Bool.true_or]

theorem headers_step (hs : Reading d s) (hf : f ∈ families)
    (hexact : ∀ e ∈ d.find f.isItem, (newHeader? f e).isSome → PlainHeader f e ∧
      (d.text e.startTag).endsWith "//>" = false) :
    (TemplateRule.headers f).Step s (s.patch (headerPlan f d (headerSource f)) [] 0) := by
  have hcarries := addHeaders_carries hs hf (headerSource f) fun e text => render_headerSource
  have hin : s.Each (Spot.In · d.content) [] 0 := hs.each fun x hx _ => hx
  have hsound : ∀ x : Spot, x.In d.content → x.place ∈ d.places → (headerPlan f d (headerSource f) x.place).Sound x := by
    intro x hx hplace
    refine headerPlan_sound hf hx fun hitem hnew => ?_
    obtain ⟨hplain, hslash⟩ := hexact _ (mem_find hplace hitem) hnew
    exact ⟨hplain.standalone hf, by rwa [text_startTag hx] at hslash⟩
  have hallowed : s.Each (fun x => (headerPlan f d (headerSource f) x.place).Allowed
      (TemplateRule.headers f).growth x) [] 0 := by
    refine hs.each fun x hx hplace => ?_
    unfold headerPlan
    split
    · next h =>
      obtain ⟨hitem, hnew⟩ := Bool.and_eq_true_iff.mp h
      obtain ⟨hplain, -⟩ := hexact _ (mem_find hplace hitem) hnew
      have hname := name_of_named hitem
      refine ⟨⟨hname, trivial, fun g hg hmention => ?_⟩, every_headerSource hf hplain⟩
      have hkept := infix_openedTag hx (closed_of_ordinary hx (item_ordinary hf hname))
        (TemplateRule.panelTag_word hg) hmention
      exact hkept.trans (List.prefix_append _ _).isInfix
    · trivial
  refine ⟨hs.wellFormed_patch hcarries hsound, Source.evolves_patch hin (hs.each hsound) hallowed, ?_, ?_⟩
  · have hevolves := Source.each_evolves_patch hin (hs.each hsound) hallowed
    have hfind : s.Each (fun x => x.place ∈ d.places) [] 0 := hs.each fun x _ hplace => hplace
    obtain ⟨-, -, hheader, -, hadds, -⟩ := TemplateRule.tags_apart hf
    refine Source.every_patch hin ((hevolves.and hfind).imp fun x ⟨hev, hplace⟩ => ?_)
    by_cases hfill : (f.isItem x.place.element && (newHeader? f x.place.element).isSome) = true
    · obtain ⟨hitem, hnew⟩ := Bool.and_eq_true_iff.mp hfill
      obtain ⟨hplain, -⟩ := hexact _ (mem_find hplace hitem) hnew
      have hplan : headerPlan f d (headerSource f) x.place = .fill _ (headerSource f x.place.element) := if_pos hfill
      rw [hplan]
      refine ⟨(every_headerSource hf hplain).imp fun tag _ _ htag hhas => ?_, fun close _ => ?_⟩
      · exact absurd hhas (hadds _ htag)
      · rw [Source.anyChild_append, anyChild_headerSource hplain, Bool.true_or]
        exact Or.inl rfl
    · have hplan : headerPlan f d (headerSource f) x.place = .keep := if_neg hfill
      rw [hplan]
      intro hhas
      have hitem := isItem_place hhas
      have hnone : newHeader? f x.place.element = none := by
        rw [hitem, Bool.true_and] at hfill
        simpa using hfill
      have hchild : (firstChild? x.place.element f.isHeader).isSome = x.inner.anyChild (isHeaderTag f) :=
        firstChild?_isSome x (named_node f.headerTag)
      rw [newHeader?, hchild] at hnone
      split at hnone
      · next hany =>
        have hopens : bytes f.headerTag ∉ (TemplateRule.headers f).opens := hheader
        exact Or.inl (TemplateRule.anyChild_header hf hopens hev hany)
      · right
        rw [← hasHeaderInput_congr (keys_place x)]
        exact (header?_eq_none_iff f _).mp hnone
  · intro editor _ hspares
    cases hspares

end Headers

section Panels

variable {d : Document} {s : Source} {f : Family} {x : Spot}

/-- An item of an ordinary name that is closed by no end tag holds nothing. -/
theorem endsIn_of_wellFormed (hs : s.WellFormed) {name : Bytes} (hord : Ordinary name) :
    s.Every (Source.EndsIn name) := by
  refine Source.every_of_each (hs.each fun x hx _ => ?_)
  intro hname
  refine ⟨hx.start.bracketed, fun c hc => (hx.stop c hc).1.bracketed, fun hnone => ?_⟩
  have hordinary : Ordinary x.name := by
    rw [show x.name = name from hname]
    exact hord
  have hclosed := closed_of_ordinary hx hordinary
  rw [hnone] at hclosed
  have hself : x.selfClosing = true := hclosed.resolve_right (by simp)
  exact (hx.leaf (by simp [Spot.leaf, Source.leaf, hself])).1

/-- What stands behind the header of a closed item is its body. -/
theorem body?_of_after? (hx : x.In d.content) (hclose : x.close.isSome) {rest : Source}
    (h : x.inner.after? f.headerTag = some rest) :
    ∃ body, body? f x.place.element = some body ∧ d.text body = render rest.pieces := by
  obtain ⟨c, hc⟩ := Option.isSome_iff_exists.mp hclose
  obtain ⟨front, -, hstop⟩ := Source.render_after? h
  have hbody : body? f x.place.element = some ⟨x.pos + x.tag.length + front.length, x.closePos⟩ := by
    rw [body?_place, hstop, hc]
    rfl
  obtain ⟨-, rest', hrest', htext⟩ := text_body? hx hbody
  obtain rfl := Option.some.inj (h.symm.trans hrest')
  exact ⟨_, hbody, htext⟩

theorem anyChild_of_headerStop? {name : Bytes} {p q : Nat} (h : s.headerStop? name p = some q) :
    s.anyChild (startTagName · = name) = true := by
  induction s generalizing p with
  | nil => cases h
  | gap g next ih => exact ih h
  | element tag selfClosing inner close next _ ih =>
    rw [Source.headerStop?] at h
    rw [Source.anyChild]
    split at h
    · next hname => simp [hname]
    · rw [ih h, Bool.or_true]

theorem infix_panelTag (f : Family) (e : Element) : bytes f.panelTag <:+: panelTag f e := by
  refine infix_within List.infix_rfl (bytes "<") (classAttribute e f.panelClassTags ++ bytes ">") ?_
  simp [panelTag, Bytes.concat]

theorem newPanel?_eq {e : Element} {panel : Bytes} (h : newPanel? f d e = some panel) : panel = panelTag f e := by
  obtain ⟨body, -, h⟩ := Option.bind_eq_some_iff.mp h
  split at h
  · cases h
  · exact (Option.some.inj h).symm

/-- The body of an item needs no panel once the item has been given one, or has gone without. -/
theorem needsNoPanel_enclosed (hf : f ∈ families) (hx : x.In d.content) (hclose : x.close.isSome)
    (hitem : f.isItem x.place.element = true)
    (htabs : x.inner.Every fun t _ _ => isTabTemplate (Element.ofTag t) = false)
    (hbrackets : TemplateRule.AllBracketed x.inner) {inner' body : Source}
    (hev : Source.Evolves (TemplateRule.panels f).growth x.inner inner')
    (hbody : (inner'.encloseWith (panelEnclosure f d) ((panelEnclosure f d).tag? x.place)).after? f.headerTag =
      some body) : NeedsNoPanel f (render body.pieces) := by
  have htag : (panelEnclosure f d).tag? x.place = newPanel? f d x.place.element := if_pos hitem
  rw [htag] at hbody
  cases hpanel : newPanel? f d x.place.element with
  | some panel =>
    rw [hpanel] at hbody
    obtain ⟨rest, rfl⟩ := Source.after?_enclose hbody
    have hmention := infix_panelTag f x.place.element
    rw [← newPanel?_eq hpanel] at hmention
    refine Or.inl (infix_within hmention [10] (render rest.pieces ++ (closeTag f.panelTag ++ [10])) ?_)
    simp [Source.pieces, Gap.piece, Piece.raw, panelEnclosure]
  | none =>
    rw [hpanel] at hbody
    obtain ⟨-, hdiffer, -⟩ := TemplateRule.tags_apart hf
    have hfresh : ¬(TemplateRule.panels f).growth.fresh f.headerTag :=
      fun hmem => hdiffer (List.mem_singleton.mp hmem)
    have hgone : ∀ tag, (TemplateRule.panels f).growth.gone tag → startTagName tag ≠ bytes f.headerTag :=
      fun tag h => absurd h.1 (by simp [TemplateRule.renames])
    rcases hev.after? hfresh hgone with ⟨-, hnone⟩ | ⟨rest, rest', hrest, hsome, hbodies⟩
    · rw [show inner'.after? f.headerTag = some body from hbody] at hnone
      cases hnone
    · obtain rfl := Option.some.inj (hsome.symm.trans hbody)
      obtain ⟨span, hspan, htext⟩ := body?_of_after? hx hclose hrest
      have hold : NeedsNoPanel f (render rest.pieces) := by
        rw [newPanel?, hspan, Option.bind_some, htext] at hpanel
        split at hpanel
        · next h =>
          rw [Bool.or_eq_true, contains_iff] at h
          exact h
        · cases hpanel
      exact TemplateRule.needsNoPanel_evolves hf hbodies (Source.Every.after? hbrackets hrest)
        (Source.Every.after? htabs hrest) hold

theorem panels_step (hs : Reading d s) (hf : f ∈ families) (hwrapped : (TemplateRule.wrap f).Done s)
    (hexact : ∀ e ∈ d.find f.isItem, ∀ tag ∈ newPanel? f d e, WholeTag tag f.panelTag false) :
    (TemplateRule.panels f).Step s (s.enclosed (panelEnclosure f d) [] 0) := by
  obtain ⟨-, hdiffer, hheader, hpanel, -⟩ := TemplateRule.tags_apart hf
  have hitem {x : Spot} {panel : Bytes} (h : panel ∈ (panelEnclosure f d).tag? x.place) :
      f.isItem x.place.element = true ∧ newPanel? f d x.place.element = some panel := by
    have h : (if f.isItem x.place.element then newPanel? f d x.place.element else none) = some panel := h
    split at h
    · next hitem => exact ⟨hitem, h⟩
    · cases h
  have hfresh : ¬(TemplateRule.panels f).growth.fresh (panelEnclosure f d).header :=
    fun hmem => hdiffer (List.mem_singleton.mp hmem)
  have hsplit : ∀ header, ¬(TemplateRule.panels f).growth.split (panelEnclosure f d).header header := by
    intro header hmem
    obtain ⟨tag, htag, hpair⟩ := List.mem_map.mp hmem
    exact hheader (List.mem_map.mpr ⟨tag, htag, (Prod.mk.inj hpair).1⟩)
  have hedits : ∀ tag tag' first, (TemplateRule.panels f).growth.edits tag tag' first →
      startTagName tag ≠ (panelEnclosure f d).header := fun tag tag' first h => absurd h.1 List.not_mem_nil
  have hgone : ∀ tag, (TemplateRule.panels f).growth.gone tag → startTagName tag ≠ (panelEnclosure f d).header :=
    fun tag h => absurd h.1 (by simp [TemplateRule.renames])
  have hends := endsIn_of_wellFormed hs.wellFormed (header_ordinary hf).1
  have hallowed : s.Each (fun x => ∀ panel ∈ (panelEnclosure f d).tag? x.place,
      (TemplateRule.panels f).growth.split x.name (panelEnclosure f d).header ∧
        (TemplateRule.panels f).growth.fresh (startTagName panel) ∧ x.close.isSome ∧
        x.inner.anyChild (startTagName · = (panelEnclosure f d).header) = true) [] 0 := by
    refine hs.each fun x hx hplace panel hmem => ?_
    obtain ⟨hself, hnew⟩ := hitem hmem
    obtain ⟨hclose, q, hq, -⟩ := enclosable_panel f x (Option.isSome_iff_exists.mpr ⟨panel, hmem⟩)
    refine ⟨?_, ?_, hclose, anyChild_of_headerStop? hq⟩
    · obtain ⟨tag, htag, hname⟩ := List.mem_map.mp (name_of_named hself)
      exact List.mem_map.mpr ⟨tag, htag, by rw [hname]; rfl⟩
    · exact List.mem_singleton.mpr (hexact _ (mem_find hplace hself) panel hnew).name
  refine ⟨?_, Source.evolves_enclosed hfresh hsplit hedits hgone hends hallowed, ?_, ?_⟩
  · refine wellFormed_panels hs hf fun x hx hplace hself tag htag => ?_
    obtain ⟨h1, h2⟩ := hexact _ (mem_find hplace hself) tag htag
    exact ⟨h1, h2⟩
  · have hevolves := Source.each_evolves_enclosed hfresh hsplit hedits hgone hends hallowed
    have hknown := Source.each_of_every (hwrapped.and (AllBracketed.of_wellFormed hs.wellFormed).inside) [] 0
    have hspots : s.Each (fun x => x.In d.content ∧ x.place ∈ d.places) [] 0 := hs.each fun x hx hplace => ⟨hx, hplace⟩
    refine Source.every_enclosed (((hevolves.and hknown).and hspots).imp fun x hx => ⟨?_, ?_⟩)
    · obtain ⟨⟨hev, htabs, hbrackets⟩, hin, hplace⟩ := hx
      intro hhas hclose body hbody
      exact needsNoPanel_enclosed hf hin hclose (isItem_place hhas) (htabs hhas) hbrackets hev hbody
    · intro panel hmem inner close hhas
      obtain ⟨hself, hnew⟩ := hitem hmem
      have hname := (hexact _ (mem_find hx.2.2 hself) panel hnew).name
      rw [Family.Has, hname] at hhas
      exact absurd hhas hpanel
  · intro editor _ hspares
    cases hspares

end Panels

section Review

variable {d : Document} {s : Source} {f : Family}

theorem review_step (hs : Reading d s) (hf : f ∈ families) (touched : Bool) :
    (TemplateRule.review f).Step s (s.patch (reviewPlan f d touched) [] 0) := by
  have hcarries := addReviewComments_carries hs f touched
  have hin : s.Each (Spot.In · d.content) [] 0 := hs.each fun x hx _ => hx
  have hsound : ∀ x : Spot, (reviewPlan f d touched x.place).Sound x := reviewPlan_sound hf touched
  refine ⟨hs.wellFormed_patch hcarries fun x _ _ => hsound x, ?_, trivial, ?_⟩
  · refine Source.evolves_patch hin (hs.each fun x _ _ => hsound x) (hs.each fun x _ _ => ?_)
    unfold reviewPlan
    split <;> trivial
  · intro editor _ hspares
    cases hspares

end Review

end Codemod.Release12
