import Codemod.Proofs.Markup.Parsed

namespace Codemod.Markup

/-- A tag as one meets it on the way through a template: a start tag, or the end tag of an
element that is not void. -/
inductive TagEvent where
  | start (tag : StartTag)
  | stop (name : Bytes) (span : Span)
  deriving DecidableEq, Repr

namespace TagEvent

def name : TagEvent → Bytes
  | start tag => tag.name
  | stop name _ => name

def span : TagEvent → Span
  | start tag => tag.span
  | stop _ span => span

end TagEvent

def Token.event? (t : Token) : Option TagEvent :=
  match t.kind with
  | .startTag _ _ selfClosing => some (.start (StartTag.scan t.raw t.start selfClosing))
  | .endTag =>
    if isVoid (endTagName t.raw) then none else some (.stop (endTagName t.raw) ⟨t.start, t.stop⟩)
  | .text | .comment | .unfinished => none

/-- The start tags and the end tags of elements that are not void, in the order of the content. -/
def tagEvents (content : Bytes) : List TagEvent := (tokens content).filterMap Token.event?

mutual

/-- The tags met on a walk through an element: its start tag, its children, its end tag. -/
def Element.tour : Element → List TagEvent
  | .node tag children endTag _ =>
    .start tag :: (Element.tourIn children ++ (endTag.map (TagEvent.stop tag.name)).toList)

def Element.tourIn : List Element → List TagEvent
  | [] => []
  | e :: es => e.tour ++ Element.tourIn es

end

/-- A tag that opens or closes a level of nesting. -/
inductive Bracket where
  | opens (name : Bytes)
  | closes (name : Bytes)
  deriving DecidableEq, Repr

/-- Start tags of elements without content open nothing. -/
def TagEvent.bracket? : TagEvent → Option Bracket
  | start tag => if tag.selfClosing || isVoid tag.name then none else some (.opens tag.name)
  | stop name _ => some (.closes name)

/-- Every level is closed under the name with which it was opened, inner ones first. -/
inductive WellNested : List Bracket → Prop
  | nil : WellNested []
  | element (name : Bytes) {inner next : List Bracket} : WellNested inner → WellNested next →
      WellNested (.opens name :: (inner ++ .closes name :: next))

def Mark.event? (m : Mark) : Option TagEvent :=
  match m.kind with
  | .start selfClosing => some (.start (StartTag.scan m.raw m.start selfClosing))
  | .stop => some (.stop (endTagName m.raw) ⟨m.start, m.start + m.raw.length⟩)
  | .unfinished => none

theorem Token.event?_eq (t : Token) : t.event? = t.mark?.bind Mark.event? := by
  obtain ⟨kind, start, raw⟩ := t
  cases kind with
  | endTag =>
    by_cases hvoid : isVoid (endTagName raw) = true
    · simp [Token.event?, Token.mark?, hvoid]
    · simp [Token.event?, Token.mark?, Mark.event?, Token.stop, hvoid]
  | _ => rfl

theorem tagEvents_eq (content : Bytes) : tagEvents content = (marks none ⟨0, content⟩).filterMap Mark.event? := by
  rw [marks, List.filterMap_filterMap, tagEvents, funext Token.event?_eq]
  rfl

/-- Tokens follow one another, and none is empty. -/
theorem tokensFrom_ordered (within : Option Bytes) (c : Cursor) :
    (∀ t ∈ tokensFrom within c, c.pos ≤ t.start ∧ t.start < t.stop) ∧
      (tokensFrom within c).Pairwise fun a b => a.stop ≤ b.start := by
  fun_induction tokensFrom within c with
  | case1 => simp
  | case2 within c x r h rawLength scanned extra ih =>
    obtain ⟨hin, hpair⟩ := ih
    refine ⟨?_, List.pairwise_cons.mpr ⟨?_, hpair⟩⟩
    · intro t ht
      rcases List.mem_cons.mp ht with rfl | ht
      · simp [Token.stop]
      · have := hin t ht
        dsimp only at this
        omega
    · intro t ht
      have := (hin t ht).1
      simp only [Token.stop, List.length_cons] at this ⊢
      omega

theorem span_of_event? {t : Token} {x : TagEvent} (h : t.event? = some x) : x.span = ⟨t.start, t.stop⟩ := by
  obtain ⟨kind, start, raw⟩ := t
  cases kind <;> simp only [Token.event?, reduceCtorEq, Option.some.injEq] at h
  · cases h
    rfl
  · split at h
    · cases h
    · cases h
      rfl

theorem tagEvents_ordered (content : Bytes) :
    (tagEvents content).Pairwise fun a b => a.span.start < b.span.start := by
  obtain ⟨hin, hpair⟩ := tokensFrom_ordered none ⟨0, content⟩
  refine List.pairwise_filterMap.mpr (hpair.imp_of_mem ?_)
  intro a b ha hb hab x hx y hy
  have hlt := (hin a ha).2
  rw [span_of_event? hx, span_of_event? hy]
  exact Nat.lt_of_lt_of_le hlt hab

namespace Source

/-- A walk through the tree meets the tags as they stand in the content. -/
theorem tourIn_build (s : Source) {parent : Option Bytes} {held : List Bytes} (hs : s.Nested parent held)
    (p : Nat) : Element.tourIn (s.build p) = (marksOf p s.pieces).filterMap Mark.event? := by
  induction s generalizing parent held p with
  | nil => rfl
  | gap g next ih =>
    have hnext := ih hs.2 (p + g.raw.length)
    cases g <;> exact hnext
  | element tag selfClosing inner close next ih1 ih2 =>
    have hinner := ih1 hs.inner (p + tag.length)
    have hnext := ih2 hs.2.2 (p + tag.length + inner.size + (close.getD []).length)
    have hstart (ms : List Mark) : (⟨.start selfClosing, p, tag⟩ :: ms).filterMap Mark.event? =
        .start (StartTag.scan tag p selfClosing) :: ms.filterMap Mark.event? := rfl
    rw [build, Element.tourIn, Element.tour, hinner, hnext, pieces, marksOf, hstart, marksOf_append,
      length_render, List.filterMap_append, marksOf_append, List.filterMap_append]
    cases close with
    | none => simp [marksOf]
    | some c =>
      have hname : endTagName c = startTagName tag := hs.endTagName c rfl
      simp [marksOf, Mark.event?, hname, Piece.raw]

/-- Where no end tag may be omitted, the tags of a tree are well nested. -/
theorem wellNested_build (s : Source) {parent : Option Bytes} {held : List Bytes} (hs : s.Nested parent held)
    (p : Nat) (hopt : ∀ x ∈ Element.tourIn (s.build p), hasOptionalEnd x.name = false) :
    WellNested ((Element.tourIn (s.build p)).filterMap TagEvent.bracket?) := by
  induction s generalizing parent held p with
  | nil => exact .nil
  | gap g next ih => exact ih hs.2 _ hopt
  | element tag selfClosing inner close next ih1 ih2 =>
    rw [build, Element.tourIn, Element.tour] at hopt ⊢
    have hinner := ih1 hs.inner (p + tag.length) fun x hx => hopt x (by simp [hx])
    have hnext := ih2 hs.2.2 _ fun x hx => hopt x (List.mem_append_right _ hx)
    obtain ⟨-, hbody, -⟩ := hs
    by_cases hleaf : leaf tag selfClosing = true
    · rw [if_pos hleaf] at hbody
      obtain ⟨rfl, rfl⟩ := hbody
      have hnone : (TagEvent.start (StartTag.scan tag p selfClosing)).bracket? = none := by
        rw [leaf] at hleaf
        rw [TagEvent.bracket?, StartTag.scan_selfClosing, StartTag.scan_name, if_pos hleaf]
      rw [List.cons_append, List.filterMap_cons_none hnone]
      exact hnext
    · rw [if_neg hleaf] at hbody
      have hsome : (TagEvent.start (StartTag.scan tag p selfClosing)).bracket? =
          some (.opens (startTagName tag)) := by
        rw [leaf] at hleaf
        rw [TagEvent.bracket?, StartTag.scan_selfClosing, StartTag.scan_name, if_neg hleaf]
      cases close with
      | none =>
        have hoptional : hasOptionalEnd (startTagName tag) = true := hbody.2
        have hnot := hopt (.start (StartTag.scan tag p selfClosing)) (by simp)
        rw [TagEvent.name, StartTag.scan_name, hoptional] at hnot
        cases hnot
      | some c =>
        have hnested := WellNested.element (startTagName tag) hinner hnext
        simpa [List.filterMap_cons_some hsome, TagEvent.bracket?] using hnested

theorem leaf_of_places (s : Source) {parent : Option Bytes} {held : List Bytes} (hs : s.Nested parent held)
    {p : Nat} {above : List Element} :
    ∀ place ∈ Element.placesIn above (s.build p),
      (place.element.selfClosing || isVoid place.element.name) = true →
        place.element.children = [] ∧ place.element.endTag = none := by
  induction s generalizing parent held p above with
  | nil => simp [build, Element.placesIn]
  | gap g next ih => exact ih hs.2
  | element tag selfClosing inner close next ih1 ih2 =>
    intro place hplace hplain
    rcases mem_placesIn_element.mp hplace with rfl | hplace | hplace
    · have hleaf : leaf tag selfClosing = true := by
        simpa [leaf, node, Element.selfClosing, Element.name, Element.tag] using hplain
      obtain ⟨rfl, rfl⟩ := hs.leaf hleaf
      exact ⟨rfl, rfl⟩
    · exact ih1 hs.inner place hplace hplain
    · exact ih2 hs.2.2 place hplace hplain

end Source

def Mark.bracket? (m : Mark) : Option Bracket := m.event?.bind TagEvent.bracket?

/-- A forest whose open elements all need their end tags, and marks that fit it. -/
structure Strict (ms : List Mark) (f : Forest) : Prop where
  finished : ∀ m ∈ ms, m.kind ≠ .unfinished
  marks : ∀ m ∈ ms, ∀ x ∈ m.event?, hasOptionalEnd x.name = false
  forest : ∀ name ∈ f.names, hasOptionalEnd name = false

namespace Strict

theorem of_append {a b : List Mark} {f : Forest} (h : Strict (a ++ b) f) : Strict a f ∧ Strict b f :=
  ⟨⟨fun m hm => h.finished m (List.mem_append_left _ hm), fun m hm => h.marks m (List.mem_append_left _ hm),
      h.forest⟩,
    ⟨fun m hm => h.finished m (List.mem_append_right _ hm), fun m hm => h.marks m (List.mem_append_right _ hm),
      h.forest⟩⟩

theorem of_cons {m : Mark} {ms : List Mark} {f : Forest} (h : Strict (m :: ms) f) : Strict ms f :=
  (of_append (a := [m]) h).2

theorem push {ms : List Mark} {f : Forest} (h : Strict ms f) (es : List Element) : Strict ms (f.push es) :=
  ⟨h.finished, h.marks, by rw [Forest.names_push]; exact h.forest⟩

/-- A start tag ends no open element. -/
theorem start_eq {ms : List Mark} {f : Forest} (h : Strict ms f) (tag : StartTag) :
    f.start tag = if tag.selfClosing || isVoid tag.name then f.push [.node tag [] none tag.span.stop]
      else f.opened tag := by
  have hcloses : f.names.head?.any (closesImplicitly · tag.name) = false := by
    rw [Bool.eq_false_iff]
    intro hany
    obtain ⟨name, hname, hcloses⟩ := Option.any_eq_true .. |>.mp hany
    have hopt := Stack.hasOptionalEnd_of_closesImplicitly hcloses
    rw [h.forest name (List.mem_of_mem_head? hname)] at hopt
    cases hopt
  rw [Forest.start_eq, hcloses]
  rfl

/-- Marks without brackets add elements without content. -/
theorem foldlM_leaves {ms : List Mark} {f : Forest} (h : Strict ms f) (hms : ∀ m ∈ ms, m.bracket? = none) :
    ∃ es, ms.foldlM Forest.mark f = .ok (f.push es) := by
  induction ms generalizing f with
  | nil => exact ⟨[], rfl⟩
  | cons m ms ih =>
    have hm := hms m (List.mem_cons_self ..)
    have hmark : ∃ e, f.mark m = .ok (f.push [e]) := by
      have hkind := h.finished m (List.mem_cons_self ..)
      obtain ⟨kind, start, raw⟩ := m
      cases kind with
      | start selfClosing =>
        simp only [Mark.bracket?, Mark.event?, Option.bind_some, TagEvent.bracket?] at hm
        split at hm
        · next hleaf =>
          have hstart := h.start_eq (StartTag.scan raw start selfClosing)
          rw [if_pos hleaf] at hstart
          exact ⟨_, congrArg Except.ok hstart⟩
        · cases hm
      | stop => cases hm
      | unfinished => exact absurd rfl hkind
    obtain ⟨e, he⟩ := hmark
    have hrest : Strict ms f := h.of_cons
    obtain ⟨es, hes⟩ := ih (hrest.push [e]) fun x hx => hms x (List.mem_cons_of_mem m hx)
    exact ⟨e :: es, by rw [Forest.foldlM_cons_ok he, hes]; rfl⟩

/-- The start tag of an element with content opens it. -/
theorem mark_opens {m : Mark} {ms : List Mark} {f : Forest} {name : Bytes} (h : Strict (m :: ms) f)
    (hm : m.bracket? = some (.opens name)) :
    ∃ tag : StartTag, tag.name = name ∧ isVoid name = false ∧ f.mark m = .ok (f.opened tag) ∧
      Strict ms (f.opened tag) := by
  have hname := h.marks m (List.mem_cons_self ..)
  have hrest : Strict ms f := h.of_cons
  obtain ⟨kind, start, raw⟩ := m
  cases kind with
  | start selfClosing =>
    simp only [Mark.bracket?, Mark.event?, Option.bind_some, TagEvent.bracket?] at hm
    split at hm
    · cases hm
    · next hleaf =>
      cases hm
      have hstart := h.start_eq (StartTag.scan raw start selfClosing)
      rw [if_neg hleaf] at hstart
      refine ⟨_, rfl, ?_, congrArg Except.ok hstart, hrest.finished, hrest.marks, ?_⟩
      · simp only [Bool.or_eq_true, not_or, Bool.not_eq_true] at hleaf
        exact hleaf.2
      · intro n hn
        rcases List.mem_cons.mp hn with rfl | hn
        · exact hname _ rfl
        · exact h.forest n hn
  | stop => cases hm
  | unfinished => cases hm

theorem mark_closes {m : Mark} {f : Forest} {tag : StartTag} (es : List Element)
    (hvoid : isVoid tag.name = false) (hm : m.bracket? = some (.closes tag.name)) :
    ∃ e, ((f.opened tag).push es).mark m = .ok (f.push [e]) := by
  obtain ⟨kind, start, raw⟩ := m
  cases kind with
  | start selfClosing =>
    simp only [Mark.bracket?, Mark.event?, Option.bind_some, TagEvent.bracket?] at hm
    split at hm <;> cases hm
  | stop =>
    have hname : endTagName raw = tag.name := by
      simpa [Mark.bracket?, Mark.event?, TagEvent.bracket?] using hm
    have hnames : ((f.opened tag).push es).names = [] ++ tag.name :: f.names := by simp
    have hfinish := Forest.finish_of_names ⟨start, start + raw.length⟩ hnames (by simp) hvoid
    refine ⟨.node tag es (some ⟨start, start + raw.length⟩) (start + raw.length), ?_⟩
    rw [Forest.mark, hname, hfinish, List.length_nil, Function.iterate_zero, id_eq, Forest.close_push_opened]
    rfl
  | unfinished => cases hm

/-- Well-nested marks leave the open elements as they were. -/
theorem foldlM_wellNested {bs : List Bracket} (hbs : WellNested bs) {ms : List Mark} {f : Forest}
    (h : Strict ms f) (hms : ms.filterMap Mark.bracket? = bs) :
    ∃ es, ms.foldlM Forest.mark f = .ok (f.push es) := by
  -- Induction on the nesting: between two brackets there may be elements without content.
  induction hbs generalizing ms f with
  | nil => exact h.foldlM_leaves (List.filterMap_eq_nil_iff.mp hms)
  | element name _ _ ih1 ih2 =>
    obtain ⟨before, m, rest, rfl, hbefore, hm, hrest⟩ := List.filterMap_eq_cons_iff.mp hms
    obtain ⟨inside, rest, rfl, hinside, hrest⟩ := List.filterMap_eq_append_iff.mp hrest
    obtain ⟨after, m', next, rfl, hafter, hm', hnext⟩ := List.filterMap_eq_cons_iff.mp hrest
    obtain ⟨es1, h1⟩ := h.of_append.1.foldlM_leaves hbefore
    obtain ⟨tag, rfl, hvoid, h2, hopened⟩ := (h.of_append.2.push es1).mark_opens hm
    obtain ⟨es3, h3⟩ := ih1 hopened.of_append.1 hinside
    obtain ⟨es4, h4⟩ := (hopened.of_append.2.of_append.1.push es3).foldlM_leaves hafter
    obtain ⟨e, h5⟩ := mark_closes (f := f.push es1) (es3 ++ es4) hvoid hm'
    have hnext' : Strict next f := h.of_append.2.of_cons.of_append.2.of_append.2.of_cons
    obtain ⟨es6, h6⟩ := ih2 ((hnext'.push es1).push [e]) hnext
    rw [Forest.push_append] at h5
    refine ⟨es1 ++ [e] ++ es6, ?_⟩
    rw [Forest.foldlM_append_ok h1, Forest.foldlM_cons_ok h2, Forest.foldlM_append_ok h3,
      Forest.foldlM_append_ok h4, Forest.foldlM_cons_ok h5, h6, Forest.push_append, Forest.push_append]

end Strict

/-- A template with no unfinished tag whose brackets are well nested is accepted. -/
theorem parse_of_wellNested (path : Bytes) {content : Bytes}
    (hfinished : ∀ t ∈ tokens content, t.kind ≠ .unfinished)
    (hopt : ∀ x ∈ tagEvents content, hasOptionalEnd x.name = false)
    (h : WellNested ((tagEvents content).filterMap TagEvent.bracket?)) :
    ∃ d, Document.parse path content = .ok d := by
  have hstrict : Strict (marks none ⟨0, content⟩) Forest.empty := by
    refine ⟨?_, ?_, by simp [Forest.names, Forest.empty]⟩
    · intro m hm
      obtain ⟨t, ht, hmark⟩ := List.mem_filterMap.mp hm
      have hkind := hfinished t ht
      obtain ⟨kind, start, raw⟩ := t
      cases kind with
      | unfinished => exact absurd rfl hkind
      | startTag => cases hmark; simp
      | endTag =>
        simp only [Token.mark?] at hmark
        split at hmark
        · cases hmark
        · cases hmark; simp
      | text => cases hmark
      | comment => cases hmark
    · intro m hm x hx
      rw [tagEvents_eq] at hopt
      exact hopt x (List.mem_filterMap.mpr ⟨m, hm, hx⟩)
  rw [tagEvents_eq, List.filterMap_filterMap] at h
  obtain ⟨es, hes⟩ := Strict.foldlM_wellNested h hstrict rfl
  have hread : (tokens content).foldlM Forest.add Forest.empty = .ok (Forest.empty.push es) := by
    rw [foldlM_add]
    exact hes
  have hcomplete : (Forest.empty.push es).complete content.length = .ok es := by
    simp [Forest.empty, Forest.push_empty, Forest.complete]
  have hroots : (tokens content).foldlM Forest.add Forest.empty >>= (Forest.complete · content.length) =
      .ok es := by
    rw [hread]
    exact hcomplete
  exact ⟨⟨path, content, es⟩, by rw [Document.parse, hroots]⟩

/-- On the way through the tree of an accepted template one meets the tags of its content. -/
theorem tourIn_of_parse {path content : Bytes} {d : Document} (h : Document.parse path content = .ok d) :
    Element.tourIn d.roots = tagEvents content := by
  obtain ⟨s, hs, rfl, rfl⟩ := exists_source h
  rw [tagEvents_eq, hs.reads.marks_render]
  exact s.tourIn_build hs.nested 0

/-- Where no tag has an optional end tag, a template is accepted just when its tags are well
nested, and then its tree has exactly these tags, in their order. -/
theorem parse_iff_wellNested (path content : Bytes)
    (hfinished : ∀ t ∈ tokens content, t.kind ≠ .unfinished)
    (hopt : ∀ x ∈ tagEvents content, hasOptionalEnd x.name = false) :
    ((∃ d, Document.parse path content = .ok d) ↔
      WellNested ((tagEvents content).filterMap TagEvent.bracket?)) ∧
    ∀ d, Document.parse path content = .ok d →
      Element.tourIn d.roots = tagEvents content ∧
      (tagEvents content).Pairwise (fun a b => a.span.start < b.span.start) ∧
      ∀ place ∈ d.places, (place.element.selfClosing || isVoid place.element.name) = true →
        place.element.children = [] ∧ place.element.endTag = none := by
  refine ⟨⟨?_, parse_of_wellNested path hfinished hopt⟩, ?_⟩
  · rintro ⟨d, hd⟩
    rw [← tourIn_of_parse hd] at hopt ⊢
    obtain ⟨s, hs, rfl, rfl⟩ := exists_source hd
    exact s.wellNested_build hs.nested 0 hopt
  · intro d hd
    refine ⟨tourIn_of_parse hd, tagEvents_ordered content, ?_⟩
    obtain ⟨s, hs, rfl, rfl⟩ := exists_source hd
    exact s.leaf_of_places hs.nested

/-- Void and self-closing elements, an end tag that counts for nothing and names that differ
only in case; where only the case is wrong, the template is refused. -/
theorem parse_iff_wellNested_case :
    (∃ d, Document.parse "a.html" "<a b='>'><br></br><c/><A></A></a>" = .ok d ∧
      Element.tourIn d.roots = tagEvents "<a b='>'><br></br><c/><A></A></a>") ∧
    (tagEvents "<a b='>'><br></br><c/><A></A></a>").length = 6 ∧
    ¬∃ d, Document.parse "a.html" "<a></A>" = .ok d := by
  refine ⟨?_, by decide +kernel, ?_⟩
  · have h := parse_iff_wellNested "a.html" "<a b='>'><br></br><c/><A></A></a>"
      (by decide +kernel) (by decide +kernel)
    have hbrackets : (tagEvents "<a b='>'><br></br><c/><A></A></a>").filterMap TagEvent.bracket? =
        [.opens "a", .opens "A", .closes "A", .closes "a"] := by decide +kernel
    obtain ⟨d, hd⟩ := h.1.mpr (hbrackets ▸ .element "a" (.element "A" .nil .nil) .nil)
    exact ⟨d, hd, (h.2 d hd).1⟩
  · rw [(parse_iff_wellNested "a.html" "<a></A>" (by decide +kernel) (by decide +kernel)).1]
    have hbrackets : (tagEvents "<a></A>").filterMap TagEvent.bracket? = [.opens "a", .closes "A"] := by
      decide +kernel
    rw [hbrackets]
    generalize hlist : [Bracket.opens "a", .closes "A"] = bs
    rintro (_ | ⟨name, hinner, hnext⟩)
    · cases hlist
    · next inner next =>
      have htail : [Bracket.closes "A"] = inner ++ .closes name :: next := (List.cons.inj hlist).2
      have hname : bytes "a" = name := Bracket.opens.inj (List.cons.inj hlist).1
      cases inner with
      | nil =>
        have hcase : bytes "A" = bytes "a" := by
          rw [hname]
          exact Bracket.closes.inj (List.cons.inj htail).1
        exact absurd hcase (by decide)
      | cons x inner => simp at htail

end Codemod.Markup
