import Codemod.Proofs.Markup.Every

namespace Codemod.Markup

/-- A start tag as it was written, and what is read of it. -/
structure Opening where
  raw : Bytes
  name : Bytes
  /-- The names and values of its attributes in source order. -/
  attrs : List (Bytes × Bytes)
  selfClosing : Bool
  deriving DecidableEq, Repr

/-- A template without offsets: its elements, what they hold and the text around them. -/
inductive Outline where
  /-- No further element, only text. -/
  | rest (text : Bytes)
  /-- Text, an element behind it with its end tag if it has one, and what follows. -/
  | element (before : Bytes) (opening : Opening) (inner : Outline) (close : Option Bytes) (next : Outline)
  deriving DecidableEq, Repr

/-- A property of every start tag in an outline. -/
def Outline.Every (P : Opening → Prop) : Outline → Prop
  | .rest _ => True
  | .element _ opening inner _ next => P opening ∧ inner.Every P ∧ next.Every P

/-- The text that an outline stands for. -/
def Outline.render : Outline → Bytes
  | rest text => text
  | element before opening inner close next =>
    before ++ (opening.raw ++ (inner.render ++ (close.getD [] ++ next.render)))

def StartTag.opening (content : Bytes) (tag : StartTag) : Opening :=
  ⟨tag.span.text content, tag.name, tag.attrs.map Attribute.key, tag.selfClosing⟩

mutual

def Element.outline (content before : Bytes) (next : Outline) : Element → Outline
  | .node tag children endTag stop =>
    let self := Element.node tag children endTag stop
    .element before (tag.opening content) (Element.outlineIn content self.contentSpan children)
      (endTag.map (Span.text · content)) next

/-- The outline of a range that holds the elements. -/
def Element.outlineIn (content : Bytes) (range : Span) : List Element → Outline
  | [] => .rest (range.text content)
  | e :: es =>
    e.outline content (Span.text ⟨range.start, e.span.start⟩ content)
      (Element.outlineIn content ⟨e.span.stop, range.stop⟩ es)

end

def Document.outline (d : Document) : Outline := Element.outlineIn d.content ⟨0, d.content.length⟩ d.roots

/-- What is read of a start tag that stands alone. -/
def openingOf (tag : Bytes) (selfClosing : Bool) : Opening :=
  ⟨tag, startTagName tag, (Element.ofTag tag).keys, selfClosing⟩

/-- A start tag as it is read by itself. -/
def ReadAlone (o : Opening) : Prop := IsStartTag o.raw o.selfClosing ∧ o = openingOf o.raw o.selfClosing

namespace Source

/-- The outline of a tree behind some text. -/
def outline (before : Bytes) : Source → Outline
  | nil => .rest before
  | gap g next => next.outline (before ++ g.raw)
  | element tag selfClosing inner close next =>
    .element before (openingOf tag selfClosing) (inner.outline []) close (next.outline [])

theorem render_outline (s : Source) (before : Bytes) : (s.outline before).render = before ++ render s.pieces := by
  induction s generalizing before with
  | nil => simp [outline, Outline.render, pieces]
  | gap g next ih => rw [outline, ih, pieces, render_cons, render_piece, List.append_assoc]
  | element tag selfClosing inner close next ih1 ih2 =>
    cases close <;> simp [outline, Outline.render, openingOf, pieces, Piece.raw, ih1, ih2]

theorem every_outline {s : Source} {above : List Element} {p : Nat} (h : s.Each (fun x => IsStartTag x.tag x.selfClosing) above p)
    (before : Bytes) : (s.outline before).Every ReadAlone := by
  induction s generalizing above p before with
  | nil => trivial
  | gap g next ih => exact ih h _
  | element tag selfClosing inner close next ih1 ih2 => exact ⟨⟨h.1, rfl⟩, ih1 h.2.1 _, ih2 h.2.2 _⟩

theorem text_at {content pre text post : Bytes} (h : content = pre ++ (text ++ post)) {p : Nat}
    (hp : pre.length = p) : Span.text ⟨p, p + text.length⟩ content = text := by
  rw [h, ← hp, ← List.append_assoc]
  exact slice_self pre text post

theorem opening_scan {content pre tag post : Bytes} (h : content = pre ++ (tag ++ post)) {p : Nat}
    (hp : pre.length = p) (selfClosing : Bool) :
    (StartTag.scan tag p selfClosing).opening content = openingOf tag selfClosing := by
  have hkeys := keys_node p tag selfClosing .nil none
  rw [StartTag.opening, openingOf, StartTag.scan_span, StartTag.scan_name, StartTag.scan_selfClosing, text_at h hp]
  exact congrArg (Opening.mk tag (startTagName tag) · selfClosing) hkeys

/-- The elements of a tree, read from its content, have the tree's outline; `start` is where the
text in front of the tree begins. -/
theorem outlineIn_build {content : Bytes} {s : Source} {parent : Option Bytes} {held : List Bytes}
    (hn : s.Nested parent held) {pre before post : Bytes}
    (hcontent : content = pre ++ (before ++ (render s.pieces ++ post))) {start p : Nat}
    (hstart : pre.length = start) (hp : start + before.length = p) :
    Element.outlineIn content ⟨start, p + s.size⟩ (s.build p) = s.outline before := by
  induction s generalizing pre before post parent held start p with
  | nil =>
    rw [build, Element.outlineIn, outline, size, Nat.add_zero, ← hp, text_at hcontent hstart]
  | gap g next ih =>
    have hrest : content = pre ++ ((before ++ g.raw) ++ (render next.pieces ++ post)) := by
      rw [hcontent, pieces, render_cons, render_piece]
      simp
    rw [build, outline, size, ← Nat.add_assoc]
    exact ih hn.2 hrest hstart (by rw [List.length_append]; omega)
  | element tag selfClosing inner close next ih1 ih2 =>
    have hsplit : content = pre ++ (before ++ (tag ++ (render inner.pieces ++ (close.getD [] ++
        (render next.pieces ++ post))))) := by
      rw [hcontent]
      cases close <;> simp [pieces, Piece.raw]
    generalize hq : p + tag.length + inner.size + (close.getD []).length = q
    have hbefore : Span.text ⟨start, p⟩ content = before := by
      rw [← hp]
      exact text_at hsplit hstart
    have hopening : (StartTag.scan tag p selfClosing).opening content = openingOf tag selfClosing :=
      opening_scan (hsplit.trans (List.append_assoc ..).symm) (by rw [List.length_append]; omega) selfClosing
    have hinner : Element.outlineIn content ⟨p + tag.length, p + tag.length + inner.size⟩ (inner.build (p + tag.length)) =
        inner.outline [] := by
      have hcut : content = (pre ++ (before ++ tag)) ++ ([] ++ (render inner.pieces ++ (close.getD [] ++
          (render next.pieces ++ post)))) := by
        rw [hsplit]
        simp
      refine ih1 hn.inner hcut ?_ rfl
      simp only [List.length_append]
      omega
    have hclose : close.map (fun c => Span.text ⟨p + tag.length + inner.size, p + tag.length + inner.size + c.length⟩
        content) = close := by
      cases close with
      | none => rfl
      | some c =>
        have hcut : content = (pre ++ (before ++ (tag ++ render inner.pieces))) ++ (c ++ (render next.pieces ++ post)) := by
          rw [hsplit]
          simp
        refine congrArg some (text_at hcut ?_)
        simp only [List.length_append, length_render]
        omega
    have hnext : Element.outlineIn content ⟨q, q + next.size⟩ (next.build q) = next.outline [] := by
      have hcut : content = (pre ++ (before ++ (tag ++ (render inner.pieces ++ close.getD [])))) ++ ([] ++
          (render next.pieces ++ post)) := by
        rw [hsplit]
        simp
      refine ih2 hn.2.2 hcut ?_ rfl
      simp only [List.length_append, length_render]
      omega
    have hsize : p + (element tag selfClosing inner close next).size = q + next.size := by
      rw [size]
      omega
    have hspan : (node p tag selfClosing inner close).span = ⟨p, q⟩ := by rw [← hq]; rfl
    have hself := contentSpan_node (p := p) hn.leaf
    rw [build_element, hq, Element.outlineIn, hspan, hsize, hbefore, hnext, outline, ← hinner, ← hself, ← hopening, node,
      Element.outline]
    exact congrArg (Outline.element _ _ _ · _) (by rw [Option.map_map]; exact hclose)

theorem outline_of_wellFormed {s : Source} (hs : s.WellFormed) {content path : Bytes} (h : render s.pieces = content) :
    Document.outline ⟨path, content, s.build 0⟩ = s.outline [] := by
  have hcontent : content = [] ++ ([] ++ (render s.pieces ++ [])) := by simp [h]
  have hbuild := outlineIn_build hs.nested hcontent rfl rfl
  rw [Document.outline, ← h, length_render, h]
  simpa using hbuild

end Source

/-- An outline leaves nothing out. -/
theorem render_outline_of_parse {path content : Bytes} {d : Document} (h : Document.parse path content = .ok d) :
    d.outline.render = content := by
  obtain ⟨s, hs, hrender, rfl⟩ := exists_source h
  rw [Source.outline_of_wellFormed hs hrender, Source.render_outline, hrender, List.nil_append]

end Codemod.Markup
