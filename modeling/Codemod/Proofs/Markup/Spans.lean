import Codemod.Proofs.Markup.AttributeScan
import Codemod.Proofs.Markup.Parsed

namespace Codemod.Markup

/-- The ranges of an element agree with the content and with each other. -/
structure Element.Sound (content : Bytes) (e : Element) : Prop where
  startTag : e.startTag.Within ⟨0, content.length⟩
  endTag : ∀ close ∈ e.endTag, close.Within ⟨0, content.length⟩
  span : e.span.Within ⟨0, content.length⟩
  contentSpan : e.contentSpan.Within ⟨0, content.length⟩
  opening : bytes "<" ++ e.name <+: e.startTag.text content
  bracket : bytes ">" <:+ e.startTag.text content
  closing : ∀ close ∈ e.endTag, bytes "</" ++ e.name <+: close.text content
  attrs : ∀ a ∈ e.attrs, a.span.Within e.startTag ∧ a.nameSpan.Within a.span ∧ a.valueSpan.Within a.span ∧
    a.nameSpan.text content = a.name ∧ a.valueSpan.text content = a.value
  attrsOrder : e.attrs.Pairwise fun a b => a.span.stop ≤ b.span.start
  children : ∀ child ∈ e.children, child.span.Within e.contentSpan
  childrenOrder : e.children.Pairwise fun a b => a.span.stop ≤ b.span.start

namespace Source

theorem span_of_build {s : Source} {p : Nat} : ∀ e ∈ s.build p, e.span.Within ⟨p, p + s.size⟩ := by
  induction s generalizing p with
  | nil => simp [build]
  | gap g next ih =>
    intro e he
    have := ih e he
    simp only [Span.Within, size] at this ⊢
    omega
  | element tag selfClosing inner close next _ ih =>
    intro e he
    rcases List.mem_cons.mp he with rfl | he
    · simp only [Span.Within, Element.span, Element.startTag, Element.tag, Element.stop, StartTag.scan_span, size]
      omega
    · have := ih e he
      simp only [Span.Within, size] at this ⊢
      omega

/-- Siblings follow one another. -/
theorem build_pairwise (s : Source) (p : Nat) :
    (s.build p).Pairwise fun a b => a.span.stop ≤ b.span.start := by
  induction s generalizing p with
  | nil => exact List.Pairwise.nil
  | gap g next ih => exact ih _
  | element tag selfClosing inner close next _ ih =>
    refine List.pairwise_cons.mpr ⟨fun e he => ?_, ih _⟩
    exact (span_of_build e he).1

end Source

theorem getLast?_of_finish {st : TagState} {s : Bytes} {selfClosing : Bool} (hst : ∀ x, st ≠ .closed x)
    (h : st.finish s = some (selfClosing, [])) : s.getLast? = some 62 := by
  induction s generalizing st with
  | nil => simp at h
  | cons b s ih =>
    by_cases hopen : ∀ x, st.step b ≠ .closed x
    · rw [TagState.finish_cons_open hopen] at h
      rw [List.getLast?_cons, ih hopen h]
      rfl
    · obtain ⟨x, hx⟩ := not_forall_not.mp hopen
      rw [TagState.finish_cons_closed hx] at h
      have hs : s = [] := by simpa using (Prod.mk.inj (Option.some.inj h)).2
      have hb : b = 62 := by
        by_contra hne
        exact step_ne_closed hst hne x hx
      rw [hs, hb]
      rfl

theorem IsStartTag.opening {tag : Bytes} {selfClosing : Bool} (h : IsStartTag tag selfClosing) :
    bytes "<" ++ startTagName tag <+: tag := by
  obtain ⟨d, s, rfl, -, -⟩ := h.eq_cons
  exact List.cons_prefix_cons.mpr ⟨rfl, List.takeWhile_prefix _⟩

theorem IsStartTag.bracket {tag : Bytes} {selfClosing : Bool} (h : IsStartTag tag selfClosing) :
    bytes ">" <:+ tag := by
  obtain ⟨d, s, rfl, -, hfin⟩ := h.eq_cons
  have hlast : (60 :: d :: s).getLast? = some 62 := by
    rw [List.getLast?_cons, getLast?_of_finish (by simp) hfin]
    rfl
  obtain ⟨init, hinit⟩ := List.getLast?_eq_some_iff.mp hlast
  exact ⟨init, hinit.symm⟩

theorem IsEndTag.opening {tag : Bytes} (h : IsEndTag tag) : bytes "</" ++ endTagName tag <+: tag := by
  obtain ⟨d, s, selfClosing, rfl, -, -⟩ := h.eq_cons
  exact List.cons_prefix_cons.mpr ⟨rfl, List.cons_prefix_cons.mpr ⟨rfl, List.takeWhile_prefix _⟩⟩

namespace Source

theorem attrs_scan {pre tag post : Bytes} {selfClosing : Bool} (htag : IsStartTag tag selfClosing) :
    ∀ a ∈ (StartTag.scan tag pre.length selfClosing).attrs,
      a.span.Within ⟨pre.length, pre.length + tag.length⟩ ∧ a.nameSpan.Within a.span ∧
      a.valueSpan.Within a.span ∧ a.nameSpan.text (pre ++ tag ++ post) = a.name ∧
      a.valueSpan.text (pre ++ tag ++ post) = a.value := by
  intro a ha
  obtain ⟨d, s, rfl, -, -⟩ := htag.eq_cons
  have hmoved : Cursor.Moved ⟨pre.length, 60 :: d :: s⟩ ⟨pre.length + 1, d :: s⟩ [60] := Cursor.moved_cons rfl
  have hskip := Cursor.moved_skip (!isNameEnd ·) ⟨pre.length + 1, d :: s⟩
  obtain ⟨h1, h2, h3, h4, h5⟩ := ((Attribute.scanAll_spec _).1 a ha).of_moved (hmoved.trans hskip)
  have h2' := h2
  have h3' := h3
  simp only [Span.Within] at h1 h2' h3'
  refine ⟨h1, h2, h3, ?_, ?_⟩
  · rw [Span.text, slice_append (by omega) (by omega), h4]
    rfl
  · rw [Span.text, slice_append (by omega) (by omega), h5]
    rfl

theorem sound_node {pre post tag : Bytes} {selfClosing : Bool} {inner : Source} {close : Option Bytes}
    (hleaf : leaf tag selfClosing = true → inner = nil ∧ close = none) (htag : IsStartTag tag selfClosing)
    (hclose : ∀ c ∈ close, IsEndTag c ∧ endTagName c = startTagName tag) :
    (node pre.length tag selfClosing inner close).Sound
      (pre ++ (tag ++ (render inner.pieces ++ (close.getD [] ++ post)))) := by
  generalize hcontent : pre ++ (tag ++ (render inner.pieces ++ (close.getD [] ++ post))) = content
  have hlen : content.length = pre.length + (tag.length + (inner.size + ((close.getD []).length + post.length))) := by
    rw [← hcontent]
    simp [length_render]
  have hsplit : content = pre ++ tag ++ (render inner.pieces ++ (close.getD [] ++ post)) := by
    rw [← hcontent, List.append_assoc]
  have htext : Span.text ⟨pre.length, pre.length + tag.length⟩ content = tag := by
    rw [hsplit, Span.text]
    exact slice_self pre tag _
  have hname : (node pre.length tag selfClosing inner close).name = startTagName tag :=
    StartTag.scan_name tag _ _
  -- Where the end tag is and what it reads.
  have hend : ∀ close' ∈ (node pre.length tag selfClosing inner close).endTag,
      close'.Within ⟨0, content.length⟩ ∧ bytes "</" ++ startTagName tag <+: close'.text content := by
    intro close' h
    cases close with
    | none => cases h
    | some c =>
      cases h
      obtain ⟨hc, hcname⟩ := hclose c rfl
      refine ⟨?_, ?_⟩
      · simp only [Span.Within, Option.getD_some] at hlen ⊢
        omega
      · have hc' : content = pre ++ tag ++ render inner.pieces ++ c ++ post := by
          rw [← hcontent]
          simp
        have hpos : pre.length + tag.length + inner.size = (pre ++ tag ++ render inner.pieces).length := by
          simp [length_render, Nat.add_assoc]
        rw [Span.text, hc', hpos, slice_self, ← hcname]
        exact hc.opening
  refine ⟨?_, fun c hc => (hend c hc).1, ?_, ?_, ?_, ?_, ?_, ?_, ?_, ?_, ?_⟩
  · simp only [node, Element.startTag, Element.tag, StartTag.scan_span, Span.Within]
    omega
  · simp only [node, Element.span, Element.startTag, Element.tag, Element.stop, StartTag.scan_span, Span.Within]
    omega
  · rw [contentSpan_node hleaf]
    simp only [Span.Within]
    omega
  · change _ <+: Span.text ⟨pre.length, pre.length + tag.length⟩ content
    rw [htext, hname]
    exact htag.opening
  · change _ <:+ Span.text ⟨pre.length, pre.length + tag.length⟩ content
    rw [htext]
    exact htag.bracket
  · rw [hname]
    exact fun c hc => (hend c hc).2
  · rw [hsplit]
    exact attrs_scan htag
  · exact (Attribute.scanAll_spec _).2
  · rw [contentSpan_node hleaf]
    exact span_of_build
  · exact build_pairwise inner _

/-- Every element of a tree that begins behind `pre` is sound. -/
theorem sound_of_build {s : Source} {parent : Option Bytes} {held : List Bytes} (hn : s.Nested parent held)
    (hv : ∀ x ∈ s.pieces, x.Valid) {pre post : Bytes} {above : List Element} :
    ∀ place ∈ Element.placesIn above (s.build pre.length),
      place.element.Sound (pre ++ (render s.pieces ++ post)) := by
  induction s generalizing pre post above parent held with
  | nil => simp [build, Element.placesIn]
  | gap g next ih =>
    intro place hplace
    rw [build, ← List.length_append] at hplace
    have hsound : place.element.Sound (pre ++ g.raw ++ (render next.pieces ++ post)) :=
      ih hn.2 (fun x hx => hv x (List.mem_cons_of_mem _ hx)) place hplace
    rwa [List.append_assoc, ← List.append_assoc g.raw, ← render_piece] at hsound
  | element tag selfClosing inner close next ih1 ih2 =>
    have hvinner : ∀ x ∈ inner.pieces, x.Valid := fun x hx => hv x (by simp [pieces, hx])
    have hvnext : ∀ x ∈ next.pieces, x.Valid := fun x hx => hv x (by simp [pieces, hx])
    have hrender : render (element tag selfClosing inner close next).pieces ++ post =
        tag ++ (render inner.pieces ++ (close.getD [] ++ (render next.pieces ++ post))) := by
      cases close <;> simp [pieces, Piece.raw]
    intro place hplace
    rw [hrender]
    rcases mem_placesIn_element.mp hplace with rfl | hplace | hplace
    · refine sound_node hn.leaf (hv _ (List.mem_cons_self ..)) fun c hc => ⟨?_, hn.endTagName c hc⟩
      cases hc
      exact (hv (.stop c) (by simp [pieces])).1
    · rw [← List.length_append] at hplace
      rw [← List.append_assoc]
      exact ih1 hn.inner hvinner place hplace
    · have hpos : pre.length + tag.length + inner.size + (close.getD []).length =
          (pre ++ (tag ++ (render inner.pieces ++ close.getD []))).length := by
        simp [length_render, Nat.add_assoc]
      rw [hpos] at hplace
      have hsound : place.element.Sound
          (pre ++ (tag ++ (render inner.pieces ++ close.getD [])) ++ (render next.pieces ++ post)) :=
        ih2 hn.2.2 hvnext place hplace
      simpa using hsound

/-- Children are found below their parent. -/
theorem places_children {s : Source} {p : Nat} {above : List Element} :
    ∀ place ∈ Element.placesIn above (s.build p), ∀ child ∈ place.element.children,
      ⟨child, place.element :: place.ancestors⟩ ∈ Element.placesIn above (s.build p) := by
  induction s generalizing p above with
  | nil => simp [build, Element.placesIn]
  | gap g next ih => exact ih
  | element tag selfClosing inner close next ih1 ih2 =>
    intro place hplace child hchild
    rw [mem_placesIn_element] at hplace ⊢
    rcases hplace with rfl | hplace | hplace
    · exact Or.inr (Or.inl (mem_placesIn _ hchild))
    · exact Or.inr (Or.inl (ih1 place hplace child hchild))
    · exact Or.inr (Or.inr (ih2 place hplace child hchild))

/-- An element stands at the top, or it is a child of its nearest ancestor. -/
theorem places_parent {s : Source} {p : Nat} {above : List Element} :
    ∀ place ∈ Element.placesIn above (s.build p),
      (place.ancestors = above ∧ place.element ∈ s.build p) ∨
      ∃ parent rest, place.ancestors = parent :: rest ∧ place.element ∈ parent.children ∧
        ⟨parent, rest⟩ ∈ Element.placesIn above (s.build p) := by
  induction s generalizing p above with
  | nil => simp [build, Element.placesIn]
  | gap g next ih => exact ih
  | element tag selfClosing inner close next ih1 ih2 =>
    intro place hplace
    rcases mem_placesIn_element.mp hplace with rfl | hplace | hplace
    · exact Or.inl ⟨rfl, List.mem_cons_self ..⟩
    · rcases ih1 place hplace with ⟨habove, hmem⟩ | ⟨parent, rest, habove, hmem, hfound⟩
      · exact Or.inr ⟨_, above, habove, hmem, mem_placesIn_element.mpr (Or.inl rfl)⟩
      · exact Or.inr ⟨parent, rest, habove, hmem, mem_placesIn_element.mpr (Or.inr (Or.inl hfound))⟩
    · rcases ih2 place hplace with ⟨habove, hmem⟩ | ⟨parent, rest, habove, hmem, hfound⟩
      · exact Or.inl ⟨habove, List.mem_cons_of_mem _ hmem⟩
      · exact Or.inr ⟨parent, rest, habove, hmem, mem_placesIn_element.mpr (Or.inr (Or.inr hfound))⟩

end Source

/-- In every template that is accepted, the ranges of tags, attributes and elements agree with
the content, children lie within their parent, and siblings follow one another. -/
theorem spans_of_parse {path content : Bytes} {d : Document} (h : Document.parse path content = .ok d) :
    d.content = content ∧
    (∀ place ∈ d.places, place.element.Sound content ∧
      (∀ child ∈ place.element.children, ⟨child, place.element :: place.ancestors⟩ ∈ d.places) ∧
      (place.ancestors = [] ∧ place.element ∈ d.roots ∨
        ∃ parent rest, place.ancestors = parent :: rest ∧ place.element ∈ parent.children ∧
          ⟨parent, rest⟩ ∈ d.places)) ∧
    (∀ root ∈ d.roots, ⟨root, []⟩ ∈ d.places) ∧
    d.roots.Pairwise fun a b => a.span.stop ≤ b.span.start := by
  obtain ⟨s, hs, rfl, rfl⟩ := exists_source h
  refine ⟨rfl, fun place hplace => ⟨?_, Source.places_children place hplace, Source.places_parent place hplace⟩,
    fun root hroot => Source.mem_placesIn [] hroot, Source.build_pairwise s 0⟩
  have hsound : place.element.Sound ([] ++ (render s.pieces ++ [])) :=
    Source.sound_of_build hs.nested hs.reads.valid place hplace
  rwa [List.nil_append, List.append_nil] at hsound

/-- A list whose items have no end tags: one is ended by the next, the other with the list. -/
theorem spans_of_parse_list :
    ∃ d, Document.parse "a.html" "<ul class='a'><li b = c>x<li>y</ul>" = .ok d ∧ d.places.length = 3 ∧
      ∀ place ∈ d.places, place.element.Sound "<ul class='a'><li b = c>x<li>y</ul>" := by
  have hcount : (Document.parse "a.html" "<ul class='a'><li b = c>x<li>y</ul>").toOption.map
      (·.places.length) = some 3 := by decide +kernel
  cases h : Document.parse "a.html" "<ul class='a'><li b = c>x<li>y</ul>" with
  | error e => rw [h] at hcount; cases hcount
  | ok d =>
    rw [h] at hcount
    exact ⟨d, rfl, Option.some.inj hcount, fun place hplace => ((spans_of_parse h).2.1 place hplace).1⟩

end Codemod.Markup
