import Codemod.Proofs.Release12.TabSteps

namespace Codemod.Markup

/-- The elements of an outline without the text around them. -/
def Outline.bare : Outline → Outline
  | .rest _ => .rest []
  | .element _ opening inner close next => .element [] opening inner.bare close next.bare

end Codemod.Markup

namespace Codemod.Release12

open Edit Markup

/-- What is put in front of an element: the review comment, if it is a component outside of any
other and the content in front of it does not end in the comment. -/
def newComment (f : Family) (front : Bytes) (inside : Bool) (opening : Opening) : Bytes :=
  if opening.name == bytes f.component && !inside && !front.endsWith reviewComment then reviewComment else []

/-- The outline with the review comment right in front of every outermost component that lacks it.
The content begins with `front`, and `inside` tells whether the outline is that of a component's content. -/
def flagged (f : Family) (front : Bytes) (inside : Bool) : Outline → Outline
  | .rest text => .rest text
  | .element before opening inner close next =>
    let start := front ++ before
    let body := start ++ opening.raw
    let stop := body ++ (inner.render ++ close.getD [])
    .element (before ++ newComment f start inside opening) opening
      (flagged f body (inside || opening.name == bytes f.component) inner) close (flagged f stop inside next)

/-- Comments change no element. -/
theorem bare_flagged (f : Family) (front : Bytes) (inside : Bool) (o : Outline) :
    (flagged f front inside o).bare = o.bare := by
  induction o generalizing front inside with
  | rest text => rfl
  | element before opening inner close next ih1 ih2 => rw [flagged, Outline.bare, Outline.bare, ih1, ih2]

theorem reviewComment_brackets : CommentBrackets reviewComment := by
  have hrest : (reviewComment.drop 4).contains 60 = false := by
    unfold reviewComment
    repeat rw [bytes_ofList]
    decide +kernel
  have hsplit : reviewComment = [] ++ (bytes "<!--" ++ reviewComment.drop 4) := by
    rw [List.nil_append, ← isNote_reviewComment.head, List.take_append_drop]
  rw [hsplit]
  exact commentBrackets_of_split (by simp) (by simpa using hrest)

section Again

variable {f : Family} {front front' : Bytes} {inside : Bool}

theorem newComment_again {opening : Opening} (h : Retains reviewComment front front') :
    newComment f (front' ++ newComment f front inside opening) inside opening = [] := by
  have hends (text : Bytes) : text.endsWith reviewComment = true ↔ reviewComment <:+ text := List.isSuffixOf_iff_suffix
  by_cases hneeds : (opening.name == bytes f.component && !inside && !front.endsWith reviewComment) = true
  · have hmarked : (front' ++ reviewComment).endsWith reviewComment = true := (hends _).mpr (List.suffix_append ..)
    rw [newComment, newComment, if_pos hneeds, hmarked]
    simp
  · rw [newComment, newComment, if_neg hneeds, List.append_nil]
    refine if_neg fun hagain => hneeds ?_
    rw [Bool.and_eq_true, Bool.not_eq_true'] at hagain ⊢
    refine ⟨hagain.1, ?_⟩
    rw [Bool.eq_false_iff, ne_eq, hends] at hagain ⊢
    exact fun hend => hagain.2 (h _ List.prefix_rfl hend)

/-- Where the content ends in a part of the comment it still does when it has been flagged. -/
theorem retains_flagged {o : Outline} (ho : o.Every ReadAlone) (h : Retains reviewComment front front') (before : Bytes) :
    Retains reviewComment (front ++ o.render) (front' ++ (flagged f before inside o).render) := by
  induction o generalizing front front' before inside with
  | rest text => exact h.append text
  | element text opening inner close next ih1 ih2 =>
    obtain ⟨hopening, hinner, hnext⟩ := ho
    let note := newComment f (before ++ text) inside opening
    let body := flagged f (before ++ text ++ opening.raw) (inside || opening.name == bytes f.component) inner
    let after := flagged f (before ++ text ++ opening.raw ++ (inner.render ++ close.getD [])) inside next
    have hbody : Retains reviewComment (front ++ text ++ opening.raw) (front' ++ (text ++ note) ++ opening.raw) :=
      reviewComment_brackets.retains_tag hopening.1 _ _
    have hstop : Retains reviewComment (front ++ text ++ opening.raw ++ inner.render ++ close.getD [])
        (front' ++ (text ++ note) ++ opening.raw ++ body.render ++ close.getD []) := (ih1 hinner hbody _).append _
    have hend : Retains reviewComment (front ++ text ++ opening.raw ++ inner.render ++ close.getD [] ++ next.render)
        (front' ++ (text ++ note) ++ opening.raw ++ body.render ++ close.getD [] ++ after.render) := ih2 hnext hstop _
    change Retains reviewComment (front ++ (text ++ (opening.raw ++ (inner.render ++ (close.getD [] ++ next.render)))))
      (front' ++ (text ++ note ++ (opening.raw ++ (body.render ++ (close.getD [] ++ after.render)))))
    simpa only [List.append_assoc] using hend

/-- Flagging a second time adds nothing. -/
theorem flagged_flagged {o : Outline} (ho : o.Every ReadAlone) (h : Retains reviewComment front front') :
    flagged f front' inside (flagged f front inside o) = flagged f front inside o := by
  induction o generalizing front front' inside with
  | rest text => rfl
  | element text opening inner close next ih1 ih2 =>
    obtain ⟨hopening, hinner, hnext⟩ := ho
    let note := newComment f (front ++ text) inside opening
    let body := flagged f (front ++ text ++ opening.raw) (inside || opening.name == bytes f.component) inner
    have hnote : newComment f (front' ++ (text ++ note)) inside opening = [] := by
      rw [← List.append_assoc]
      exact newComment_again (h.append text)
    have hbody : Retains reviewComment (front ++ text ++ opening.raw) (front' ++ (text ++ note) ++ opening.raw) :=
      reviewComment_brackets.retains_tag hopening.1 _ _
    have hstop : Retains reviewComment (front ++ text ++ opening.raw ++ (inner.render ++ close.getD []))
        (front' ++ (text ++ note) ++ opening.raw ++ (body.render ++ close.getD [])) := by
      rw [← List.append_assoc, ← List.append_assoc _ body.render]
      exact (retains_flagged hinner hbody _).append _
    rw [flagged, flagged]
    change Outline.element (text ++ note ++ newComment f (front' ++ (text ++ note)) inside opening) opening
      (flagged f (front' ++ (text ++ note) ++ opening.raw) _ body) close _ = _
    rw [hnote, List.append_nil, ih1 hinner hbody]
    exact congrArg _ (ih2 hnext hstop)

end Again

section Reviewed

variable {f : Family} {d : Document}

theorem outline_foldr_gap (gaps : List Gap) (s : Source) (before : Bytes) :
    (gaps.foldr Source.gap s).outline before = s.outline (before ++ gapText gaps) := by
  induction gaps generalizing before with
  | nil => simp [gapText]
  | cons g gaps ih => simp [Source.outline, ih, gapText, Source.render_piece]

theorem needsReview_node {p : Nat} {tag : Bytes} {selfClosing : Bool} {inner : Source} {close : Option Bytes}
    {above : List Element} {front : Bytes} (hfront : d.content.take p = front) :
    needsReview f d ⟨Source.node p tag selfClosing inner close, above⟩ =
      ((openingOf tag selfClosing).name == bytes f.component && !above.any (Element.named [bytes f.component]) &&
        !front.endsWith reviewComment) := by
  rw [needsReview, Place.isOutermost, named_node, precededBy, ← beq_eq_decide, ← hfront]
  rfl

/-- The plan of a tree flags its outline. -/
theorem outline_reviewPlan {s : Source} {above : List Element} {p : Nat} {front before post : Bytes}
    (hcontent : d.content = front ++ (before ++ (render s.pieces ++ post))) (hp : front.length + before.length = p) :
    (s.patch (reviewPlan f d true) above p).outline before =
      flagged f front (above.any (Element.named [bytes f.component])) (s.outline before) := by
  induction s generalizing above p front before post with
  | nil => rfl
  | gap g next ih =>
    have hrest : d.content = front ++ ((before ++ g.raw) ++ (render next.pieces ++ post)) := by
      rw [hcontent, Source.pieces, render_cons, Source.render_piece]
      simp
    exact ih hrest (by rw [List.length_append]; omega)
  | element tag selfClosing inner close next ih1 ih2 =>
    rw [Source.render_element] at hcontent
    have hinner : d.content = (front ++ before ++ tag) ++ ([] ++ (render inner.pieces ++ (close.getD [] ++
        (render next.pieces ++ post)))) := by
      rw [hcontent]
      simp
    have hnext : d.content = (front ++ before ++ tag ++ (render inner.pieces ++ close.getD [])) ++
        ([] ++ (render next.pieces ++ post)) := by
      rw [hcontent]
      simp
    have h1 := @ih1 (Source.node p tag selfClosing inner close :: above) _ _ _ _ hinner rfl
    have h2 := @ih2 above _ _ _ _ hnext rfl
    have hlen1 : (front ++ before ++ tag).length + ([] : Bytes).length = p + tag.length := by
      simp only [List.length_append, List.length_nil]
      omega
    have hlen2 : (front ++ before ++ tag ++ (render inner.pieces ++ close.getD [])).length + ([] : Bytes).length =
        p + tag.length + inner.size + (close.getD []).length := by
      simp only [List.length_append, List.length_nil, Source.length_render]
      omega
    rw [hlen1, List.any_cons, named_node, ← beq_eq_decide, Bool.or_comm] at h1
    rw [hlen2] at h2
    have hfront : d.content.take p = front ++ before := by
      rw [hcontent, ← hp, ← List.append_assoc, List.take_left' (List.length_append ..)]
    have hnote : newComment f (front ++ before) (above.any (Element.named [bytes f.component])) (openingOf tag selfClosing) =
        if needsReview f d ⟨Source.node p tag selfClosing inner close, above⟩ then reviewComment else [] := by
      rw [needsReview_node hfront, newComment]
    rw [Source.outline, flagged, hnote, Source.render_outline, List.nil_append, Source.patch, reviewPlan, Bool.true_and]
    by_cases hneeds : needsReview f d ⟨Source.node p tag selfClosing inner close, above⟩ = true
    · rw [if_pos hneeds, if_pos hneeds, Patch.source, outline_foldr_gap, isNote_reviewComment.gapText, Source.outline, h1, h2]
      rfl
    · rw [if_neg hneeds, if_neg hneeds, Patch.source, Source.outline, h1, h2, List.append_nil]
      rfl

/-- A plan that leaves the outline as it is has nothing to flag. -/
theorem needsReview_eq_false {s : Source} {above : List Element} {p : Nat} {before : Bytes}
    (h : (s.patch (reviewPlan f d true) above p).outline before = s.outline before) :
    s.Each (fun x => needsReview f d x.place = false) above p := by
  induction s generalizing above p before with
  | nil => trivial
  | gap g next ih => exact ih h
  | element tag selfClosing inner close next ih1 ih2 =>
    rw [Source.patch, reviewPlan, Bool.true_and] at h
    by_cases hneeds : needsReview f d ⟨Source.node p tag selfClosing inner close, above⟩ = true
    · rw [if_pos hneeds, Patch.source, outline_foldr_gap, isNote_reviewComment.gapText, Source.outline, Source.outline] at h
      injection h with htext
      have hne : reviewComment ≠ [] := List.ne_nil_of_mem (List.mem_of_getLast? isNote_reviewComment.last)
      exact absurd (List.append_right_eq_self.mp htext) hne
    · rw [if_neg hneeds, Patch.source, Source.outline, Source.outline] at h
      injection h with _ _ hinner _ hnext
      exact ⟨Bool.eq_false_iff.mpr hneeds, ih1 hinner, ih2 hnext⟩

theorem outline_patch_review {s : Source} (hs : Reading d s) :
    (s.patch (reviewPlan f d true) [] 0).outline [] = flagged f [] false d.outline := by
  have hcontent : d.content = [] ++ ([] ++ (render s.pieces ++ [])) := by simp [hs.content]
  rw [hs.outline]
  exact outline_reviewPlan hcontent rfl

/-- Where flagging changes nothing the rule emits nothing. -/
theorem addReviewComments_eq_nil {s : Source} (hs : Reading d s) (h : flagged f [] false d.outline = d.outline) :
    addReviewComments f d true = [] := by
  rw [← outline_patch_review hs, hs.outline] at h
  have heach := needsReview_eq_false h
  rw [addReviewComments_eq]
  refine List.flatMap_eq_nil_iff.mpr fun place hplace => ?_
  rw [Document.places, ← hs.roots] at hplace
  obtain ⟨x, rfl, hx⟩ := heach.exists_spot hplace
  rw [hx]
  rfl

theorem precededBy_of_addReviewComments_eq_nil (h : addReviewComments f d true = []) :
    ∀ e ∈ d.outermost (Element.named [bytes f.component]), precededBy d e.startTag.start reviewComment = true := by
  rw [addReviewComments, if_pos rfl, List.map_eq_nil_iff, List.filter_eq_nil_iff] at h
  intro e he
  simpa using h e he

/-- Review comments are put in front of exactly the outermost components that lack one: nothing else changes, and no
comment is missing afterwards. -/
theorem outline_addReviewComments {path content : Bytes} (hf : f ∈ families) (hparse : Document.parse path content = .ok d) :
    ∃ updated d', applyChanges content (addReviewComments f d true) = .ok updated ∧
      Document.parse path updated = .ok d' ∧
      d.outline.render = content ∧ d'.outline = flagged f [] false d.outline ∧ d'.outline.render = updated ∧
      d'.outline.bare = d.outline.bare ∧
      (∀ e ∈ d'.outermost (Element.named [bytes f.component]), precededBy d' e.startTag.start reviewComment = true) ∧
      addReviewComments f d' true = [] := by
  have hrender := render_outline_of_parse hparse
  obtain ⟨s, hs, rfl⟩ := exists_reading hparse
  have hwell := (review_step hs hf true).wellFormed
  have hparse' := hwell.parse_render path
  obtain ⟨d', hd'⟩ : ∃ d', d' = Document.mk path (render (s.patch (reviewPlan f d true) [] 0).pieces)
    ((s.patch (reviewPlan f d true) [] 0).build 0) := ⟨_, rfl⟩
  have hs' : Reading d' (s.patch (reviewPlan f d true) [] 0) := by
    rw [hd']
    exact ⟨hwell, rfl, rfl⟩
  rw [← hd'] at hparse'
  have houtline : d'.outline = flagged f [] false d.outline := hs'.outline.trans (outline_patch_review hs)
  have hread : d.outline.Every ReadAlone := by
    rw [hs.outline]
    exact Source.every_outline (hs.wellFormed.each fun x hx _ => hx.start) []
  have hsame : Retains reviewComment [] [] := fun _ _ h => h
  have hquiet : addReviewComments f d' true = [] := by
    refine addReviewComments_eq_nil hs' ?_
    rw [houtline]
    exact flagged_flagged hread hsame
  refine ⟨_, d', (addReviewComments_carries hs f true).apply, hparse', hrender, houtline,
    render_outline_of_parse hparse', ?_, precededBy_of_addReviewComments_eq_nil hquiet, hquiet⟩
  rw [houtline, bare_flagged]

/-- A component in a component, one behind it, and one that is flagged. -/
theorem outline_addReviewComments_nested :
    ∃ d d', Document.parse "a.html" (bytes "<p><igx-tabs><igx-tabs/></igx-tabs><igx-tabs></igx-tabs>" ++ reviewComment ++
        bytes "<igx-tabs/>") = .ok d ∧
      applyChanges (bytes "<p><igx-tabs><igx-tabs/></igx-tabs><igx-tabs></igx-tabs>" ++ reviewComment ++ bytes "<igx-tabs/>")
        (addReviewComments tabs d true) =
        .ok (bytes "<p>" ++ reviewComment ++ bytes "<igx-tabs><igx-tabs/></igx-tabs>" ++ reviewComment ++
          bytes "<igx-tabs></igx-tabs>" ++ reviewComment ++ bytes "<igx-tabs/>") ∧
      Document.parse "a.html" (bytes "<p>" ++ reviewComment ++ bytes "<igx-tabs><igx-tabs/></igx-tabs>" ++ reviewComment ++
          bytes "<igx-tabs></igx-tabs>" ++ reviewComment ++ bytes "<igx-tabs/>") = .ok d' ∧
      d'.outline.bare = d.outline.bare ∧ addReviewComments tabs d' true = [] := by
  generalize htext : bytes "<p><igx-tabs><igx-tabs/></igx-tabs><igx-tabs></igx-tabs>" ++ reviewComment ++
    bytes "<igx-tabs/>" = text
  have hcheck : (Document.parse "a.html" text).toOption.map (fun d => (flagged tabs [] false d.outline).render) =
      some (bytes "<p>" ++ reviewComment ++ bytes "<igx-tabs><igx-tabs/></igx-tabs>" ++ reviewComment ++
          bytes "<igx-tabs></igx-tabs>" ++ reviewComment ++ bytes "<igx-tabs/>") := by
    rw [← htext]
    repeat rw [bytes_ofList]
    decide +kernel
  cases hparse : Document.parse "a.html" text with
  | error e =>
    rw [hparse] at hcheck
    cases hcheck
  | ok d =>
    obtain ⟨updated, d', happly, hparse', -, houtline, hrender, hbare, -, hquiet⟩ :=
      outline_addReviewComments (f := tabs) (by simp [families]) hparse
    rw [hparse] at hcheck
    rw [houtline] at hrender
    rw [← hrender, show (flagged tabs [] false d.outline).render = _ from Option.some.inj hcheck] at happly hparse'
    exact ⟨d, d', rfl, happly, hparse', hbare, hquiet⟩

end Reviewed

end Codemod.Release12
