import Codemod.Proofs.Release12.Done
import Mathlib.Data.List.Infix

namespace Codemod.Release12

open Edit Markup

/-- The end of a text with more text behind: it lies in what was added, or begins in front of that. -/
theorem suffix_append_cases {part a t : Bytes} (h : part <:+ a ++ t) : part <:+ t ∨ ∃ c, part = c ++ t ∧ c <:+ a := by
  obtain ⟨u, hu⟩ := h
  rcases List.append_eq_append_iff.mp hu with ⟨c, rfl, hpart⟩ | ⟨c, -, rfl⟩
  · exact Or.inr ⟨c, hpart, List.suffix_append u c⟩
  · exact Or.inl (List.suffix_append c part)

/-- A text ends in the same beginnings of `w` as another, and perhaps in more. -/
def Retains (w before before' : Bytes) : Prop := ∀ part, part <+: w → part <:+ before → part <:+ before'

theorem Retains.append {w a b : Bytes} (h : Retains w a b) (t : Bytes) : Retains w (a ++ t) (b ++ t) := by
  intro part hpart hend
  rcases suffix_append_cases hend with hend | ⟨c, rfl, hc⟩
  · exact hend.trans (List.suffix_append b t)
  · obtain ⟨v, hv⟩ := h c ((List.prefix_append c t).trans hpart) hc
    exact ⟨v, by rw [← hv, List.append_assoc]⟩

/-- The brackets in a comment: it opens as one, and where a part of it ends in a bracket, it has
been opened. -/
structure CommentBrackets (w : Bytes) : Prop where
  opens : ∀ x, [60, x] <:+: w → x = 33
  closes : ∀ part, part <+: w → part.getLast? = some 62 → bytes "<!--" <:+: part

/-- A text in which one comment opens, with no bracket in front of it and no other opening behind. -/
theorem commentBrackets_of_split {lead rest : Bytes} (hlead : ∀ b ∈ lead, b ≠ 60 ∧ b ≠ 62) (hrest : 60 ∉ rest) :
    CommentBrackets (lead ++ (bytes "<!--" ++ rest)) := by
  constructor
  · rintro x ⟨a, b, hab⟩
    rw [List.append_assoc] at hab
    rcases List.append_eq_append_iff.mp hab with ⟨c, rfl, hc⟩ | ⟨c, rfl, hc⟩
    · cases c with
      | nil => exact (List.cons.inj (List.cons.inj hc).2).1
      | cons y c =>
        have hy : y = 60 := (List.cons.inj hc).1.symm
        exact absurd hy (hlead y (by simp)).1
    · cases c with
      | nil => exact (List.cons.inj (List.cons.inj hc).2).1.symm
      | cons y c =>
        -- behind the opening there is no other
        have hbehind : bytes "!--" ++ rest = c ++ ([60, x] ++ b) := (List.cons.inj hc).2
        have hmem : (60 : UInt8) ∈ bytes "!--" ++ rest := by
          rw [hbehind]
          simp
        rcases List.mem_append.mp hmem with hmem | hmem
        · exact absurd hmem (by decide)
        · exact absurd hmem hrest
  · intro part hpart hlast
    have hend := List.mem_of_getLast? hlast
    have hopening : lead ++ bytes "<!--" <+: lead ++ (bytes "<!--" ++ rest) :=
      ⟨rest, List.append_assoc ..⟩
    rcases Nat.le_total (lead ++ bytes "<!--").length part.length with hlong | hshort
    · have hopened : bytes "<!--" <:+: lead ++ bytes "<!--" := ⟨lead, [], List.append_nil _⟩
      exact hopened.trans (List.prefix_of_prefix_length_le hopening hpart hlong).isInfix
    · rcases List.mem_append.mp ((List.prefix_of_prefix_length_le hpart hopening hshort).subset hend) with hmem | hmem
      · exact absurd rfl (hlead 62 hmem).2
      · exact absurd hmem (by decide)

theorem warning_brackets {editor : Editor} (h : editor ∈ editors) : CommentBrackets editor.templateWarning := by
  have hall : ∀ editor ∈ editors, (editor.templateWarning.drop 5).contains 60 = false := by
    simp only [editors, List.forall_mem_cons, Editor.templateWarning]
    repeat rw [bytes_ofList]
    decide +kernel
  obtain ⟨hbreak, hnote⟩ := warning_spec h
  have hsplit : editor.templateWarning = [10] ++ (bytes "<!--" ++ editor.templateWarning.drop 5) := by
    have hparts := List.take_append_drop 4 (editor.templateWarning.drop 1)
    rw [hnote.head, List.drop_drop] at hparts
    rw [hparts, List.singleton_append]
    exact hbreak
  rw [hsplit]
  refine commentBrackets_of_split ?_ (by simpa using hall editor h)
  intro b hb
  rw [List.mem_singleton.mp hb]
  exact ⟨by decide, by decide⟩

section Tags

variable {w tag : Bytes} {selfClosing : Bool}

theorem CommentBrackets.not_part_of (hw : CommentBrackets w) (htag : IsStartTag tag selfClosing) : ¬tag <:+: w := by
  obtain ⟨x, t, rfl, hletter, -⟩ := htag.eq_cons
  intro h
  have hx : x = 33 := hw.opens x (((List.prefix_append [60, x] t).isInfix).trans h)
  rw [hx] at hletter
  cases hletter

/-- A start tag at the end of both texts decides how they end. -/
theorem CommentBrackets.retains_tag (hw : CommentBrackets w) (htag : IsStartTag tag selfClosing) (a b : Bytes) :
    Retains w (a ++ tag) (b ++ tag) := by
  intro part hpart hend
  rcases suffix_append_cases hend with hend | ⟨c, rfl, -⟩
  · exact hend.trans (List.suffix_append b tag)
  · exact absurd ((List.suffix_append c tag).isInfix.trans hpart.isInfix) (hw.not_part_of htag)

/-- A comment does not end with a start tag in which none begins. -/
theorem CommentBrackets.retains_of_tag (hw : CommentBrackets w) (htag : IsStartTag tag selfClosing)
    (hcomment : ¬bytes "<!--" <:+: tag) (a b : Bytes) : Retains w (a ++ tag) b := by
  intro part hpart hend
  rcases suffix_append_cases hend with hend | ⟨c, rfl, -⟩
  · by_cases hnil : part = []
    · rw [hnil]
      exact List.nil_suffix
    · obtain ⟨u, hu⟩ := hend
      have hlast : part.getLast? = some 62 := by
        rw [← htag.bracketed.last, ← hu, List.getLast?_append_of_ne_nil _ hnil]
      exact absurd ((hw.closes part hpart hlast).trans ⟨u, [], by rw [hu, List.append_nil]⟩) hcomment
  · exact absurd ((List.suffix_append c tag).isInfix.trans hpart.isInfix) (hw.not_part_of htag)

end Tags

section Patched

variable {editor : Editor}

theorem isTemplate_ofTag {tag : Bytes} (h : editor.isTemplate (Element.ofTag tag) = true) :
    startTagName tag = bytes "ng-template" := by
  have hname := List.mem_singleton.mp (List.elem_iff.mp (Bool.and_eq_true_iff.mp h).1)
  rwa [Element.ofTag, Source.name_node] at hname

theorem warned_of_every {s : Source} (h : s.Every fun t _ _ => startTagName t ≠ bytes "ng-template") (inside : Bool)
    (before : Bytes) : Warned editor inside before s := by
  induction s generalizing inside before with
  | nil => trivial
  | gap g next ih => exact ih h _ _
  | element tag selfClosing inner close next ih1 ih2 =>
    exact ⟨fun _ htemplate => absurd (isTemplate_ofTag htemplate) h.1, ih1 h.2.1 _ _, ih2 h.2.2 _ _⟩

theorem warned_append (a b : Source) (inside : Bool) (before : Bytes) : Warned editor inside before (a.append b) ↔
    Warned editor inside before a ∧ Warned editor inside (before ++ render a.pieces) b := by
  induction a generalizing before with
  | nil => simp [Source.append, Warned, Source.pieces]
  | gap g next ih => simp [Source.append, Warned, Source.pieces, Source.render_piece, ih]
  | element tag selfClosing inner close next _ ih =>
    simp [Source.append, Warned, Source.render_element, ih, and_assoc]

theorem warned_foldr_gap (gaps : List Gap) (s : Source) (inside : Bool) (before : Bytes) :
    Warned editor inside before (gaps.foldr .gap s) ↔ Warned editor inside (before ++ gapText gaps) s := by
  induction gaps generalizing before with
  | nil => simp [gapText]
  | cons g gaps ih => simp [Warned, gapText, ih, Source.render_piece]

/-- What is done to an element leaves the warnings in front of templates; `placed` tells whether
there is one in front of this element. -/
def RespectsWarnings (editor : Editor) (x : Spot) (placed : Prop) : Patch → Prop
  | .keep => x.above.any (Element.named [bytes editor.component]) = true →
      editor.isTemplate (Element.ofTag x.tag) = true → placed
  | .front gaps => x.above.any (Element.named [bytes editor.component]) = true →
      editor.isTemplate (Element.ofTag x.tag) = true → gapText gaps = editor.templateWarning
  | .retag _ => x.name ≠ bytes "ng-template" ∧ ¬bytes "<!--" <:+: x.tag
  | .fill _ first => x.name ≠ bytes "ng-template" ∧ ¬bytes "<!--" <:+: x.tag ∧
      first.Every fun t _ _ => startTagName t ≠ bytes "ng-template"
  | .rename _ => False

/-- One element: its start tag became `tag'` with `first` behind it, and it stands behind `text`
now; what the edits do to its content and to what follows is known. -/
theorem warned_element {before text tag tag' : Bytes} {selfClosing inside : Bool} {close close' : Option Bytes}
    {first inner inner' next next' : Source} (hname : startTagName tag' = startTagName tag)
    (hhead : inside = true → editor.isTemplate (Element.ofTag tag') = true → editor.templateWarning <:+ text)
    (hfirst : first.Every fun t _ _ => startTagName t ≠ bytes "ng-template")
    (hbelow : ∀ t, Retains editor.templateWarning (before ++ tag) t →
      Warned editor (inside || decide (startTagName tag = bytes editor.component)) t inner' ∧
        Retains editor.templateWarning ((before ++ tag) ++ render inner.pieces) (t ++ render inner'.pieces))
    (hbehind : ∀ t, Retains editor.templateWarning (before ++ (tag ++ (render inner.pieces ++ close.getD []))) t →
      Warned editor inside t next' ∧ Retains editor.templateWarning
        ((before ++ (tag ++ (render inner.pieces ++ close.getD []))) ++ render next.pieces) (t ++ render next'.pieces))
    (htext : Retains editor.templateWarning (before ++ tag) (text ++ (tag' ++ render first.pieces)))
    (hclose : close' = close ∨ ∀ t, Retains editor.templateWarning
      (before ++ (tag ++ (render inner.pieces ++ close.getD []))) t) :
    Warned editor inside text (.element tag' selfClosing (first.append inner') close' next') ∧
      Retains editor.templateWarning
        (before ++ (tag ++ (render inner.pieces ++ (close.getD [] ++ render next.pieces))))
        (text ++ render (Source.element tag' selfClosing (first.append inner') close' next').pieces) := by
  obtain ⟨hinner, hend⟩ := hbelow _ htext
  have hafter : Retains editor.templateWarning (before ++ (tag ++ (render inner.pieces ++ close.getD [])))
      (text ++ (tag' ++ (render (first.append inner').pieces ++ close'.getD []))) := by
    rcases hclose with rfl | hclose
    · have happend := hend.append (close'.getD [])
      simpa [Source.pieces_append] using happend
    · exact hclose _
  obtain ⟨hnext, hlast⟩ := hbehind _ hafter
  refine ⟨⟨hhead, ?_, hnext⟩, ?_⟩
  · rw [hname, warned_append]
    refine ⟨warned_of_every hfirst _ _, ?_⟩
    simpa using hinner
  · rw [Source.render_element]
    simpa using hlast

/-- Edits keep the warnings in front of templates. -/
theorem warned_patch (hw : CommentBrackets editor.templateWarning) {content : Bytes} {plan : Place → Patch} {s : Source}
    {above : List Element} {p : Nat} {inside : Bool} {before before' post : Bytes} (hp : p = before.length)
    (hcontent : content = before ++ (render s.pieces ++ post)) (hin : s.Each (Spot.In · content) above p)
    (hsound : s.Each (fun x => (plan x.place).Sound x) above p)
    (h : s.Each (fun x => RespectsWarnings editor x (editor.templateWarning <:+ content.take x.pos) (plan x.place)) above p)
    (hinside : inside = above.any (Element.named [bytes editor.component]))
    (hbefore : Retains editor.templateWarning before before') :
    Warned editor inside before' (s.patch plan above p) ∧
      Retains editor.templateWarning (before ++ render s.pieces) (before' ++ render (s.patch plan above p).pieces) := by
  induction s generalizing above p inside before before' post with
  | nil => exact ⟨trivial, by simpa [Source.patch, Source.pieces] using hbefore⟩
  | gap g next ih =>
    have hrest : content = (before ++ g.raw) ++ (render next.pieces ++ post) := by
      rw [hcontent, Source.pieces, render_cons, Source.render_piece]
      simp
    have hlen : p + g.raw.length = (before ++ g.raw).length := by rw [hp, List.length_append]
    obtain ⟨h1, h2⟩ := ih hlen hrest hin hsound h hinside (hbefore.append g.raw)
    refine ⟨h1, ?_⟩
    simpa [Source.patch, Source.pieces, Source.render_piece] using h2
  | element tag selfClosing inner close next ih1 ih2 =>
    obtain ⟨hin, hin1, hin2⟩ := hin
    obtain ⟨hsound, hsound1, hsound2⟩ := hsound
    obtain ⟨h, h1, h2⟩ := h
    have hstart : IsStartTag tag selfClosing := hin.start
    have hleaf : selfClosing = true → inner = .nil ∧ close = none :=
      fun hself => hin.leaf (by simp [Spot.leaf, Source.leaf, hself])
    rw [Source.render_element] at hcontent ⊢
    have hinner : content = (before ++ tag) ++ (render inner.pieces ++ (close.getD [] ++ (render next.pieces ++ post))) := by
      rw [hcontent]
      simp
    have hrest : content = (before ++ (tag ++ (render inner.pieces ++ close.getD []))) ++ (render next.pieces ++ post) := by
      rw [hcontent]
      simp
    have hinside' : (inside || decide (startTagName tag = bytes editor.component)) =
        (Source.node p tag selfClosing inner close :: above).any (Element.named [bytes editor.component]) := by
      rw [List.any_cons, named_node, hinside, Bool.or_comm]
    have hlen1 : p + tag.length = (before ++ tag).length := by rw [hp, List.length_append]
    have hlen2 : p + tag.length + inner.size + (close.getD []).length =
        (before ++ (tag ++ (render inner.pieces ++ close.getD []))).length := by
      rw [hp]
      simp [Source.length_render, Nat.add_assoc]
    have htake : content.take p = before := by rw [hcontent, hp, List.take_left]
    have hbelow := fun t ht => @ih1 _ _ _ _ t _ hlen1 hinner hin1 hsound1 h1 hinside' ht
    have hbehind := fun t ht => @ih2 _ _ _ _ t _ hlen2 hrest hin2 hsound2 h2 hinside ht
    have hplain : Source.nil.Every fun t _ _ => startTagName t ≠ bytes "ng-template" := trivial
    rw [Source.patch]
    dsimp only [Spot.place, Spot.element] at h hsound ⊢
    rw [htake] at h
    cases hplan : plan ⟨Source.node p tag selfClosing inner close, above⟩ with
    | keep =>
      rw [hplan] at h
      refine warned_element rfl (fun hin htemplate => ?_) hplain hbelow hbehind ?_ (Or.inl rfl)
      · exact hbefore _ List.prefix_rfl (h (hinside.symm.trans hin) htemplate)
      · simpa [Source.pieces] using hbefore.append tag
    | front gaps =>
      rw [hplan] at h
      rw [Patch.source, warned_foldr_gap, Patch.render_foldr_gap, ← List.append_assoc before']
      refine warned_element rfl (fun hin htemplate => ?_) hplain hbelow hbehind ?_ (Or.inl rfl)
      · rw [h (hinside.symm.trans hin) htemplate]
        exact List.suffix_append ..
      · simpa [Source.pieces] using hw.retains_tag hstart before (before' ++ gapText gaps)
    | retag edits =>
      rw [hplan] at h hsound
      refine warned_element hsound.2 (fun _ htemplate => ?_) hplain hbelow hbehind
        (hw.retains_of_tag hstart h.2 _ _) (Or.inl rfl)
      exact absurd ((isTemplate_ofTag htemplate).symm.trans hsound.2).symm h.1
    | fill edits first =>
      rw [hplan] at h hsound
      obtain ⟨htemplate, hcomment, hfirst⟩ := h
      have hname : startTagName (Patch.filledTag edits selfClosing) = startTagName tag := hsound.2.2.1
      have hhead : inside = true → editor.isTemplate (Element.ofTag (Patch.filledTag edits selfClosing)) = true →
          editor.templateWarning <:+ before' := by
        intro _ htag
        exact absurd (hname.symm.trans (isTemplate_ofTag htag)) htemplate
      have htext (t : Bytes) := hw.retains_of_tag hstart hcomment before t
      cases hself : selfClosing with
      | false =>
        subst hself
        exact warned_element hname hhead hfirst hbelow hbehind (htext _) (Or.inl rfl)
      | true =>
        subst hself
        obtain ⟨rfl, rfl⟩ := hleaf rfl
        have hempty : ∀ t, Retains editor.templateWarning
            (before ++ (tag ++ (render Source.nil.pieces ++ (none : Option Bytes).getD []))) t := by
          simpa [Source.pieces] using htext
        rw [Patch.source, if_pos rfl, ← Source.append_nil first]
        exact warned_element hname hhead hfirst hbelow hbehind (htext _) (Or.inr hempty)
    | rename name =>
      rw [hplan] at h
      exact h.elim

end Patched

end Codemod.Release12
