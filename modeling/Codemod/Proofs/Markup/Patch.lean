import Codemod.Proofs.Markup.Piece
import Codemod.Proofs.Edit.Script
import Codemod.Proofs.Markup.Parsed

namespace Codemod.Markup

/-- The end tag can end raw text. -/
def endsRaw (tag : Bytes) : Bool := rawTextNames.contains ((endTagName tag).map Bytes.lowerLetter)

/-- Pieces that can be put in front of a tag. -/
structure Precedes (xs : List Piece) : Prop where
  leads : ∀ qs, Leads (render qs) → Leads (render (xs ++ qs))
  reads : ∀ qs, Leads (render qs) → Reads none qs → Reads none (xs ++ qs)

/-- Pieces that can be put behind a tag. -/
def Follows (xs : List Piece) : Prop := ∀ qs, Reads none qs → Reads none (xs ++ qs)

/-- Pieces that arise from others by putting in more and by changing tags. Raw text with its
tags stays as it is. -/
inductive Rewrites : List Piece → List Piece → Prop
  | nil : Rewrites [] []
  | keep (x) {ps qs} : Rewrites ps qs → Rewrites (x :: ps) (x :: qs)
  | start {tag selfClosing tag' selfClosing' xs ps qs} : rawName? tag = none →
      IsStartTag tag' selfClosing' → rawName? tag' = none → Follows xs → Rewrites ps qs →
      Rewrites (.start tag selfClosing :: ps) (.start tag' selfClosing' :: (xs ++ qs))
  | respell {tag tag' selfClosing ps qs} : IsStartTag tag' selfClosing → rawName? tag' = rawName? tag →
      Rewrites ps qs → Rewrites (.start tag selfClosing :: ps) (.start tag' selfClosing :: qs)
  | stop {tag tag' xs ps qs} : endsRaw tag = false → IsEndTag tag' → isVoid (endTagName tag') = false →
      Follows xs → Rewrites ps qs → Rewrites (.stop tag :: ps) (.stop tag' :: (xs ++ qs))
  | beforeStart {tag selfClosing xs ps qs} : Precedes xs → Rewrites (.start tag selfClosing :: ps) qs →
      Rewrites (.start tag selfClosing :: ps) (xs ++ qs)
  | beforeStop {tag xs ps qs} : endsRaw tag = false → Precedes xs → Rewrites (.stop tag :: ps) qs →
      Rewrites (.stop tag :: ps) (xs ++ qs)

theorem leads_of_head {s : Bytes} (h : s.head? = some 60) (y : Bytes) : Leads (s ++ y) := by
  cases s with
  | nil => simp at h
  | cons b s => exact Or.inl (by simpa using h)

theorem IsStartTag.leads {tag : Bytes} {selfClosing : Bool} (h : IsStartTag tag selfClosing) (y : Bytes) :
    Leads (tag ++ y) := leads_of_head h.head y

theorem IsEndTag.leads {tag : Bytes} (h : IsEndTag tag) (y : Bytes) : Leads (tag ++ y) := by
  obtain ⟨d, s, _, rfl, -, -⟩ := h.eq_cons
  exact Or.inl rfl

theorem follows_nil : Follows [] := fun _ h => h

namespace Rewrites

theorem refl (ps : List Piece) : Rewrites ps ps := by
  induction ps with
  | nil => exact .nil
  | cons x ps ih => exact .keep x ih

theorem retag {tag tag' : Bytes} {selfClosing selfClosing' : Bool} {ps qs : List Piece}
    (h1 : rawName? tag = none) (h2 : IsStartTag tag' selfClosing') (h3 : rawName? tag' = none)
    (h : Rewrites ps qs) : Rewrites (.start tag selfClosing :: ps) (.start tag' selfClosing' :: qs) :=
  start h1 h2 h3 follows_nil h

theorem restop {tag tag' : Bytes} {ps qs : List Piece} (h1 : endsRaw tag = false) (h2 : IsEndTag tag')
    (h3 : isVoid (endTagName tag') = false) (h : Rewrites ps qs) :
    Rewrites (.stop tag :: ps) (.stop tag' :: qs) :=
  stop h1 h2 h3 follows_nil h

theorem append {a a' b b' : List Piece} (ha : Rewrites a a') (hb : Rewrites b b') :
    Rewrites (a ++ b) (a' ++ b') := by
  induction ha with
  | nil => exact hb
  | keep x _ ih => exact .keep x ih
  | start h1 h2 h3 h4 _ ih =>
    rw [List.cons_append, List.cons_append, List.append_assoc]
    exact .start h1 h2 h3 h4 ih
  | respell h1 h2 _ ih => exact .respell h1 h2 ih
  | stop h1 h2 h3 h4 _ ih =>
    rw [List.cons_append, List.cons_append, List.append_assoc]
    exact .stop h1 h2 h3 h4 ih
  | beforeStart h1 _ ih =>
    rw [List.append_assoc]
    exact .beforeStart h1 ih
  | beforeStop h1 h2 _ ih =>
    rw [List.append_assoc]
    exact .beforeStop h1 h2 ih

theorem leads {ps qs : List Piece} (h : Rewrites ps qs) (hps : Leads (render ps)) : Leads (render qs) := by
  induction h with
  | nil => exact hps
  | keep x _ ih =>
    rw [render_cons] at hps ⊢
    cases hx : x.raw with
    | nil =>
      rw [hx] at hps
      exact ih hps
    | cons b s =>
      rw [hx] at hps
      exact hps
  | start _ h _ _ _ _ => exact h.leads _
  | respell h _ _ _ => exact h.leads _
  | stop _ h _ _ _ _ => exact h.leads _
  | beforeStart h1 _ ih => exact h1.leads _ (ih hps)
  | beforeStop _ h1 _ ih => exact h1.leads _ (ih hps)

theorem eq_nil {qs : List Piece} (h : Rewrites [] qs) : qs = [] := by
  cases h
  rfl

/-- The end tag of raw text stays. -/
theorem stop_raw {tag : Bytes} {ps qs : List Piece} (htag : endsRaw tag = true)
    (h : Rewrites (.stop tag :: ps) qs) : ∃ qs', qs = .stop tag :: qs' := by
  cases h with
  | keep _ h => exact ⟨_, rfl⟩
  | stop h => simp [htag] at h
  | beforeStop h => simp [htag] at h

/-- What was read back is read back after the edits. -/
theorem reads {ps qs : List Piece} (h : Rewrites ps qs) {within : Option Bytes} (hps : Reads within ps) :
    Reads within qs := by
  induction h generalizing within with
  | nil => exact hps
  | keep x h ih =>
    cases hps with
    | tail hs =>
      rw [h.eq_nil]
      exact .tail hs
    | text h1 h2 h3 => exact .text h1 (h.leads h2) (ih h3)
    | inert h1 h2 => exact .inert h1 (ih h2)
    | start h1 h2 => exact .start h1 (ih h2)
    | stop h1 h2 h3 => exact .stop h1 h2 (ih h3)
    | raw h1 h2 h3 h4 h5 h6 =>
      obtain ⟨qs', rfl⟩ := h.stop_raw (by rw [endsRaw, h1]; simpa using h2)
      have hread := ih (.stop h4 h5 h6)
      cases hread with
      | stop _ _ hread => exact .raw h1 h2 h3 h4 h5 hread
  | start h1 h2 h3 h4 _ ih =>
    cases hps with
    | start _ hread =>
      rw [h1] at hread
      refine .start h2 ?_
      rw [h3]
      exact h4 _ (ih hread)
  | respell h1 h2 _ ih =>
    cases hps with
    | start _ hread => exact .start h1 (h2 ▸ ih hread)
  | stop _ h2 h3 h4 _ ih =>
    cases hps with
    | stop _ _ hread => exact .stop h2 h3 (h4 _ (ih hread))
  | beforeStart h1 h2 ih =>
    have hread := ih hps
    cases hps with
    | start htag _ => exact h1.reads _ (h2.leads (htag.leads _)) hread
  | beforeStop _ h1 h2 ih =>
    have hread := ih hps
    cases hps with
    | stop htag _ _ => exact h1.reads _ (h2.leads (htag.leads _)) hread

end Rewrites

open Edit

def openTag (name : Bytes) : Bytes := .concat ["<", name, ">"]

def closeTag (name : Bytes) : Bytes := .concat ["</", name, ">"]

/-- What is done to one element. -/
inductive Patch where
  | keep
  /-- Text and comments are put in front of it. -/
  | front (gaps : List Gap)
  /-- Its start tag is edited. -/
  | retag (edits : Script)
  /-- Its start tag is edited and it gets first children. A self-closing tag becomes a pair of
  tags; the edits leave out its last two bytes. -/
  | fill (edits : Script) (first : Source)
  /-- Its tags are replaced by those of a name. -/
  | rename (name : Bytes)

/-- The content of gaps. -/
def gapText (gaps : List Gap) : Bytes := render (gaps.map Gap.piece)

namespace Patch

/-- The element after the edit. -/
def source (tag : Bytes) (selfClosing : Bool) (inner : Source) (close : Option Bytes) (next : Source) :
    Patch → Source
  | keep => .element tag selfClosing inner close next
  | front gaps => gaps.foldr .gap (.element tag selfClosing inner close next)
  | retag edits => .element edits.target selfClosing inner close next
  | fill edits first =>
    if selfClosing then
      .element (edits.target ++ ">") false first (some (closeTag (startTagName tag))) next
    else .element edits.target false (first.append inner) close next
  | rename name => .element (openTag name) false inner (some (closeTag name)) next

/-- The edits of the start tag. -/
def head (p : Nat) (tag : Bytes) (selfClosing : Bool) : Patch → Script
  | keep => [.keep tag]
  | front gaps => [.edit (.insert p (gapText gaps)), .keep tag]
  | retag edits => edits
  | fill edits first =>
    if selfClosing then edits ++ [.edit (.replace (p + tag.length - 2) "/>"
      (.concat [">", render first.pieces, closeTag (startTagName tag)]))]
    else edits ++ [.edit (.insert (p + tag.length) (render first.pieces))]
  | rename name =>
    [.edit (.replace p tag (openTag name ++ if selfClosing then closeTag name else []))]

/-- The edits of the end tag. -/
def tail (p : Nat) (close : Option Bytes) : Patch → Script
  | rename name => close.elim [] fun c => [.edit (.replace p c (closeTag name))]
  | _ => close.elim [] fun c => [.keep c]

end Patch

namespace Source

/-- The tree after the edits. -/
def patch (plan : Place → Patch) (above : List Element) (p : Nat) : Source → Source
  | nil => nil
  | gap g next => gap g (next.patch plan above (p + g.raw.length))
  | element tag selfClosing inner close next =>
    let e := node p tag selfClosing inner close
    (plan ⟨e, above⟩).source tag selfClosing (inner.patch plan (e :: above) (p + tag.length)) close
      (next.patch plan above (p + tag.length + inner.size + (close.getD []).length))

/-- The edits from left to right. -/
def script (plan : Place → Patch) (above : List Element) (p : Nat) : Source → Script
  | nil => []
  | gap g next => .keep g.raw :: next.script plan above (p + g.raw.length)
  | element tag selfClosing inner close next =>
    let e := node p tag selfClosing inner close
    (plan ⟨e, above⟩).head p tag selfClosing ++
      (inner.script plan (e :: above) (p + tag.length) ++
        ((plan ⟨e, above⟩).tail (p + tag.length + inner.size) close ++
          next.script plan above (p + tag.length + inner.size + (close.getD []).length)))

end Source

/-- An element of a tree with its place. -/
structure Spot where
  pos : Nat
  above : List Element
  tag : Bytes
  selfClosing : Bool
  inner : Source
  close : Option Bytes

namespace Spot

def element (x : Spot) : Element := Source.node x.pos x.tag x.selfClosing x.inner x.close

def place (x : Spot) : Place := ⟨x.element, x.above⟩

def name (x : Spot) : Bytes := startTagName x.tag

def leaf (x : Spot) : Bool := Source.leaf x.tag x.selfClosing

/-- Where the end tag begins. -/
def closePos (x : Spot) : Nat := x.pos + x.tag.length + x.inner.size

/-- The offset behind the element. -/
def stop (x : Spot) : Nat := x.closePos + (x.close.getD []).length

/-- The element stands there in a content. -/
structure In (x : Spot) (content : Bytes) : Prop where
  split : ∃ pre post, pre.length = x.pos ∧
    content = pre ++ (x.tag ++ (render x.inner.pieces ++ (x.close.getD [] ++ post)))
  start : IsStartTag x.tag x.selfClosing
  stop : ∀ c ∈ x.close, IsEndTag c ∧ endTagName c = x.name
  leaf : x.leaf = true → x.inner = .nil ∧ x.close = none
  omitted : x.leaf = false → x.close = none → hasOptionalEnd x.name = true

end Spot

namespace Source

/-- A property of every element. -/
def Each (P : Spot → Prop) (above : List Element) (p : Nat) : Source → Prop
  | nil => True
  | gap g next => next.Each P above (p + g.raw.length)
  | element tag selfClosing inner close next =>
    P ⟨p, above, tag, selfClosing, inner, close⟩ ∧
      inner.Each P (node p tag selfClosing inner close :: above) (p + tag.length) ∧
      next.Each P above (p + tag.length + inner.size + (close.getD []).length)

theorem Each.imp {P Q : Spot → Prop} (hPQ : ∀ x, P x → Q x) {above : List Element} {p : Nat} {s : Source}
    (h : s.Each P above p) : s.Each Q above p := by
  induction s generalizing above p with
  | nil => trivial
  | gap g next ih => exact ih h
  | element tag selfClosing inner close next ih1 ih2 => exact ⟨hPQ _ h.1, ih1 h.2.1, ih2 h.2.2⟩

/-- What holds wherever an element stands in the content holds of every element. -/
theorem each_of_in {P : Spot → Prop} {content : Bytes} {roots : List Element}
    (hP : ∀ x : Spot, x.In content → x.place ∈ Element.placesIn [] roots → P x)
    {s : Source} {parent : Option Bytes} {held : List Bytes} (hn : s.Nested parent held)
    (hv : ∀ x ∈ s.pieces, x.Valid) {pre post : Bytes} (hcontent : content = pre ++ (render s.pieces ++ post))
    {above : List Element}
    (hplaces : ∀ place ∈ Element.placesIn above (s.build pre.length), place ∈ Element.placesIn [] roots) :
    s.Each P above pre.length := by
  induction s generalizing pre post above parent held with
  | nil => trivial
  | gap g next ih =>
    have hrest : content = (pre ++ g.raw) ++ (render next.pieces ++ post) := by
      rw [hcontent, pieces, render_cons, render_piece]
      simp
    have h : next.Each P above (pre ++ g.raw).length :=
      ih hn.2 (fun x hx => hv x (List.mem_cons_of_mem _ hx)) hrest (by rw [List.length_append]; exact hplaces)
    rw [List.length_append] at h
    exact h
  | element tag selfClosing inner close next ih1 ih2 =>
    have hvinner : ∀ x ∈ inner.pieces, x.Valid := fun x hx => hv x (by simp [pieces, hx])
    have hvnext : ∀ x ∈ next.pieces, x.Valid := fun x hx => hv x (by simp [pieces, hx])
    have hrender : render (element tag selfClosing inner close next).pieces ++ post =
        tag ++ (render inner.pieces ++ (close.getD [] ++ (render next.pieces ++ post))) := by
      cases close <;> simp [pieces, Piece.raw]
    rw [hrender] at hcontent
    have hin : Spot.In ⟨pre.length, above, tag, selfClosing, inner, close⟩ content := by
      refine ⟨⟨pre, _, rfl, hcontent⟩, hv _ (List.mem_cons_self ..), ?_, hn.leaf, ?_⟩
      · intro c hc
        refine ⟨?_, hn.endTagName c hc⟩
        cases hc
        exact (hv (.stop c) (by simp [pieces])).1
      · rintro hleaf rfl
        have hbody := hn.2.1
        rw [if_neg (by rw [show Source.leaf tag selfClosing = false from hleaf]; simp)] at hbody
        exact hbody.2
    refine ⟨hP _ hin (hplaces _ (mem_placesIn_element.mpr (Or.inl rfl))), ?_, ?_⟩
    · have h : inner.Each P (node pre.length tag selfClosing inner close :: above) (pre ++ tag).length := by
        refine ih1 hn.inner hvinner (by rw [hcontent, List.append_assoc]) ?_
        intro place hplace
        rw [List.length_append] at hplace
        exact hplaces place (mem_placesIn_element.mpr (Or.inr (Or.inl hplace)))
      rw [List.length_append] at h
      exact h
    · have hpos : (pre ++ (tag ++ (render inner.pieces ++ close.getD []))).length =
          pre.length + tag.length + inner.size + (close.getD []).length := by
        simp [length_render, Nat.add_assoc]
      have hrest : content = (pre ++ (tag ++ (render inner.pieces ++ close.getD []))) ++
          (render next.pieces ++ post) := by
        rw [hcontent]
        simp
      rw [← hpos]
      refine ih2 hn.2.2 hvnext hrest ?_
      intro place hplace
      rw [hpos] at hplace
      exact hplaces place (mem_placesIn_element.mpr (Or.inr (Or.inr hplace)))

theorem WellFormed.each {P : Spot → Prop} {s : Source} (h : s.WellFormed)
    (hP : ∀ x : Spot, x.In (render s.pieces) → x.place ∈ Element.placesIn [] (s.build 0) → P x) :
    s.Each P [] 0 := by
  have hcontent : render s.pieces = [] ++ (render s.pieces ++ []) := by simp
  exact each_of_in hP h.nested h.reads.valid hcontent fun _ hplace => hplace

end Source

/-- Edits strictly inside a start tag, no two of them at one place. None inserts `w`. -/
structure Inside (w : Bytes) (x : Spot) (edits : Script) : Prop where
  fits : edits.Fits x.pos
  apart : edits.changes.Pairwise fun a b => a.key ≠ b.key
  inside : ∀ c ∈ edits.changes, (x.pos : Int) < c.position ∧ c.position < x.pos + x.tag.length
  text : ∀ c ∈ edits.changes, c.inserts w = false
  removes : ∀ c ∈ edits.changes, c.mode = .replace → c.remove ≠ []

namespace Patch

/-- The edits belong to the element. Only `w` is put in front of elements. -/
def Fits (w : Bytes) (x : Spot) : Patch → Prop
  | keep => True
  | front gaps => gapText gaps = w
  | retag edits => edits.source = x.tag ∧ Inside w x edits
  | fill edits first =>
    (if x.selfClosing then edits.source ++ "/>" = x.tag else edits.source = x.tag ∧ x.close.isSome) ∧
      Inside w x edits ∧ render first.pieces ≠ w
  | rename _ => x.selfClosing = true ∨ x.close.isSome

variable {w content : Bytes} {x : Spot} {k : Patch}

theorem source_head (h : k.Fits w x) : (k.head x.pos x.tag x.selfClosing).source = x.tag := by
  cases k with
  | keep => simp [head]
  | front gaps => simp [head, Change.insert, Change.removed]
  | retag edits => exact h.1
  | fill edits first =>
    have hsource := h.1
    by_cases hx : x.selfClosing = true
    · simp only [hx, if_true] at hsource
      simp [head, hx, Change.replace, Change.removed, hsource]
    · simp only [hx] at hsource
      simp [head, hx, Change.insert, Change.removed, hsource.1]
  | rename name => simp [head, Change.replace, Change.removed]

theorem source_tail (k : Patch) (p : Nat) (close : Option Bytes) : (k.tail p close).source = close.getD [] := by
  cases close <;> cases k <;> simp [tail, Change.replace, Change.removed]

theorem fits_head (h : k.Fits w x) : (k.head x.pos x.tag x.selfClosing).Fits x.pos := by
  cases k with
  | keep => simp [head]
  | front gaps => simp [head, Change.insert, Script.Fits]
  | retag edits => exact h.2.fits
  | fill edits first =>
    obtain ⟨hsource, hin, -⟩ := h
    by_cases hx : x.selfClosing = true
    · simp only [hx, if_true] at hsource
      have hlen : edits.source.length + 2 = x.tag.length := by
        rw [← hsource, List.length_append]
        rfl
      simp only [head, hx, if_true]
      refine Script.fits_append.mpr ⟨hin.fits, ?_, Or.inr rfl, trivial⟩
      simp only [Change.replace]
      omega
    · simp only [hx] at hsource
      simp only [head, hx]
      refine Script.fits_append.mpr ⟨hin.fits, ?_, Or.inl rfl, trivial⟩
      rw [hsource.1]
      rfl
  | rename name => simp [head, Change.replace, Script.Fits]

theorem fits_tail (k : Patch) (p : Nat) (close : Option Bytes) : (k.tail p close).Fits p := by
  cases close <;> cases k <;> simp [tail, Change.replace, Script.Fits]

theorem render_foldr_gap (gaps : List Gap) (s : Source) :
    render (gaps.foldr Source.gap s).pieces = gapText gaps ++ render s.pieces := by
  induction gaps with
  | nil => rfl
  | cons g gaps ih => simp [Source.pieces, ih, gapText]

/-- The edited tags around the edited content are the edited element. -/
theorem target_eq (hx : x.In content) (h : k.Fits w x) {inner next : Source}
    (hinner : x.inner = .nil → inner = .nil) :
    (k.head x.pos x.tag x.selfClosing).target ++ (render inner.pieces ++
      ((k.tail x.closePos x.close).target ++ render next.pieces)) =
        render (k.source x.tag x.selfClosing inner x.close next).pieces := by
  have hleaf : x.selfClosing = true → inner = .nil ∧ x.close = none := by
    intro hself
    have hl := hx.leaf (by simp [Spot.leaf, Source.leaf, hself])
    exact ⟨hinner hl.1, hl.2⟩
  have hkeep : ∀ tag, tag ++ (render inner.pieces ++ (Script.target (x.close.elim [] fun c => [.keep c]) ++
      render next.pieces)) = render (Source.element tag x.selfClosing inner x.close next).pieces := by
    intro tag
    cases x.close <;> simp [Source.pieces, Piece.raw]
  cases k with
  | keep => simpa [head, tail, source] using hkeep x.tag
  | front gaps =>
    rw [source, render_foldr_gap, ← hkeep]
    simp [head, tail, Change.insert]
  | retag edits => exact hkeep edits.target
  | fill edits first =>
    by_cases hself : x.selfClosing = true
    · obtain ⟨hnil, hclose⟩ := hleaf hself
      simp [head, tail, source, hself, hnil, hclose, Source.pieces, Piece.raw, Change.replace, Bytes.concat]
    · cases hclose : x.close <;>
        simp [head, tail, source, hself, Source.pieces, Source.pieces_append, Piece.raw, Change.insert]
  | rename name =>
    by_cases hself : x.selfClosing = true
    · obtain ⟨hnil, hclose⟩ := hleaf hself
      simp [head, tail, source, hself, hnil, hclose, Source.pieces, Piece.raw, Change.replace]
    · have hsome : x.close.isSome := h.resolve_left hself
      obtain ⟨c, hclose⟩ := Option.isSome_iff_exists.mp hsome
      simp [head, tail, source, hself, hclose, Source.pieces, Piece.raw, Change.replace]

/-- Where the edits of a start tag stand: within it, or right behind it if they are first
children; only `w` stands in front of it. -/
structure HeadChange (w : Bytes) (x : Spot) (c : Change) : Prop where
  start : (x.pos : Int) ≤ c.position
  stop : c.position < x.pos + x.tag.length ∨ c.position = x.pos + x.tag.length ∧ c.mode = .insert ∧
    c.inserts w = false ∧ x.close.isSome
  front : c.position = x.pos → c.mode = .insert → c.inserts w = true
  removes : c.mode = .replace → c.remove ≠ []

theorem tag_length_pos (hx : x.In content) : 0 < x.tag.length := by
  obtain ⟨d, s, h, -, -⟩ := hx.start.eq_cons
  rw [h]
  simp

theorem close_length_pos (hx : x.In content) (h : x.close.isSome) : 0 < (x.close.getD []).length := by
  obtain ⟨t, ht⟩ := Option.isSome_iff_exists.mp h
  obtain ⟨d, s, _, hs, -, -⟩ := (hx.stop t ht).1.eq_cons
  rw [ht, hs]
  simp

theorem mem_head (hx : x.In content) (h : k.Fits w x) :
    ∀ c ∈ (k.head x.pos x.tag x.selfClosing).changes, HeadChange w x c := by
  have htag := tag_length_pos hx
  have hinside : ∀ edits, Inside w x edits → ∀ c ∈ edits.changes, HeadChange w x c := by
    intro edits hin c hc
    obtain ⟨h1, h2⟩ := hin.inside c hc
    exact ⟨by omega, Or.inl h2, fun h => by omega, hin.removes c hc⟩
  cases k with
  | keep => simp [head]
  | front gaps =>
    intro c hc
    have hc : c = .insert x.pos (gapText gaps) := by simpa [head] using hc
    rw [show gapText gaps = w from h] at hc
    subst hc
    exact ⟨Int.le_refl _, Or.inl (by simp only [Change.insert]; omega), fun _ _ => by simp [Change.inserts, Change.insert],
      fun hm => by cases hm⟩
  | retag edits => exact hinside edits h.2
  | fill edits first =>
    obtain ⟨hsource, hin, hw⟩ := h
    intro c hc
    by_cases hself : x.selfClosing = true
    · simp only [hself, if_true] at hsource
      have hlen : edits.source.length + 2 = x.tag.length := by
        rw [← hsource, List.length_append]
        rfl
      simp only [head, hself, if_true, Script.changes_append, Script.changes_edit, Script.changes_nil,
        List.mem_append, List.mem_singleton] at hc
      rcases hc with hc | rfl
      · exact hinside edits hin c hc
      · refine ⟨?_, Or.inl ?_, fun _ hm => (by cases hm), fun _ => (by simp [Change.replace, bytes])⟩ <;> simp only [Change.replace] <;> omega
    · simp only [hself] at hsource
      simp only [head, hself, Bool.false_eq_true, if_false, Script.changes_append, Script.changes_edit, Script.changes_nil,
        List.mem_append, List.mem_singleton] at hc
      rcases hc with hc | rfl
      · exact hinside edits hin c hc
      · refine ⟨by simp only [Change.insert]; omega, Or.inr ⟨by simp [Change.insert], rfl, ?_, hsource.2⟩, ?_,
          fun hm => by cases hm⟩
        · simp [Change.inserts, Change.insert, hw]
        · intro hpos
          simp only [Change.insert] at hpos
          omega
  | rename name =>
    intro c hc
    have hc : c = .replace x.pos x.tag (openTag name ++ if x.selfClosing then closeTag name else []) := by
      simpa [head] using hc
    subst hc
    refine ⟨Int.le_refl _, Or.inl (by simp only [Change.replace]; omega), fun _ hm => (by cases hm), fun _ => ?_⟩
    exact List.length_pos_iff.mp htag

theorem pairwise_head (h : k.Fits w x) :
    (k.head x.pos x.tag x.selfClosing).changes.Pairwise fun a b => a.key ≠ b.key := by
  cases k with
  | keep => simp [head]
  | front gaps => simp [head]
  | retag edits => exact h.2.apart
  | fill edits first =>
    obtain ⟨hsource, hin, -⟩ := h
    by_cases hself : x.selfClosing = true
    · simp only [hself, if_true] at hsource
      have hlen : edits.source.length + 2 = x.tag.length := by
        rw [← hsource, List.length_append]
        rfl
      simp only [head, hself, if_true, Script.changes_append, Script.changes_edit, Script.changes_nil]
      refine List.pairwise_append.mpr ⟨hin.apart, by simp, ?_⟩
      intro a ha b hb hkey
      rw [List.mem_singleton.mp hb] at hkey
      simp only [Change.key, Change.replace, Prod.mk.injEq] at hkey
      -- A removal inside ends before the slash, and an insertion there has another mode.
      rcases Script.mode_of_fits hin.fits a ha with hm | hm
      · rw [hm] at hkey
        simp [Mode.code] at hkey
      · have hstop := Script.stop_le hin.fits a ha
        have hne := List.length_pos_iff.mpr (hin.removes a ha hm)
        simp only [Change.stop, hm, if_true] at hstop
        omega
    · simp only [head, hself, Bool.false_eq_true, if_false, Script.changes_append, Script.changes_edit, Script.changes_nil]
      refine List.pairwise_append.mpr ⟨hin.apart, by simp, ?_⟩
      intro a ha b hb hkey
      rw [List.mem_singleton.mp hb] at hkey
      simp only [Change.key, Change.insert, Prod.mk.injEq] at hkey
      have := (hin.inside a ha).2
      omega
  | rename name => simp [head]

theorem mem_tail (hx : x.In content) {c : Change} (hc : c ∈ (k.tail x.closePos x.close).changes) :
    c.position = x.closePos ∧ c.mode = .replace ∧ c.remove ≠ [] ∧ x.close.isSome := by
  cases hclose : x.close with
  | none =>
    rw [hclose] at hc
    cases k <;> simp [tail] at hc
  | some t =>
    rw [hclose] at hc
    have hne : t ≠ [] := by
      obtain ⟨d, s, _, h, -, -⟩ := (hx.stop t hclose).1.eq_cons
      simp [h]
    cases k with
    | rename name =>
      have hc : c = .replace x.closePos t (closeTag name) := by simpa [tail] using hc
      subst hc
      exact ⟨rfl, rfl, hne, rfl⟩
    | _ => simp [tail] at hc

end Patch

namespace Source

/-- What a plan does to an element belongs to it. -/
def Planned (w content : Bytes) (plan : Place → Patch) (x : Spot) : Prop :=
  x.In content ∧ (plan x.place).Fits w x

variable {w content : Bytes} {plan : Place → Patch} {above : List Element} {p : Nat} {s : Source}

theorem patch_nil_iff : s = nil → s.patch plan above p = nil := by
  rintro rfl
  rfl

theorem source_script (h : s.Each (Planned w content plan) above p) :
    (s.script plan above p).source = render s.pieces := by
  induction s generalizing above p with
  | nil => rfl
  | gap g next ih => simp [script, pieces, render_piece, ih h]
  | element tag selfClosing inner close next ih1 ih2 =>
    obtain ⟨⟨-, hfit⟩, h1, h2⟩ := h
    have hhead := Patch.source_head hfit
    simp only [script, Script.source_append]
    rw [ih1 h1, ih2 h2, Patch.source_tail]
    have hhead' : ((plan ⟨node p tag selfClosing inner close, above⟩).head p tag selfClosing).source = tag := hhead
    rw [hhead']
    cases close <;> simp [pieces, Piece.raw]

theorem fits_script (h : s.Each (Planned w content plan) above p) : (s.script plan above p).Fits p := by
  induction s generalizing above p with
  | nil => trivial
  | gap g next ih => exact ih h
  | element tag selfClosing inner close next ih1 ih2 =>
    obtain ⟨⟨-, hfit⟩, h1, h2⟩ := h
    have hhead := Patch.source_head hfit
    refine Script.fits_append.mpr ⟨Patch.fits_head hfit, ?_⟩
    rw [show (Patch.head p tag selfClosing (plan ⟨node p tag selfClosing inner close, above⟩)).source = tag from hhead]
    refine Script.fits_append.mpr ⟨ih1 h1, ?_⟩
    rw [source_script h1, length_render]
    refine Script.fits_append.mpr ⟨Patch.fits_tail _ _ _, ?_⟩
    rw [Patch.source_tail]
    exact ih2 h2

theorem target_script (h : s.Each (Planned w content plan) above p) :
    (s.script plan above p).target = render (s.patch plan above p).pieces := by
  induction s generalizing above p with
  | nil => rfl
  | gap g next ih => simp [script, patch, pieces, render_piece, ih h]
  | element tag selfClosing inner close next ih1 ih2 =>
    obtain ⟨⟨hin, hfit⟩, h1, h2⟩ := h
    simp only [script, Script.target_append, patch]
    rw [ih1 h1, ih2 h2]
    exact Patch.target_eq hin hfit patch_nil_iff

/-- Where the edits of a tree stand, and that only `w` stands in front of it. -/
theorem mem_script (h : s.Each (Planned w content plan) above p) :
    ∀ c ∈ (s.script plan above p).changes, (p : Int) ≤ c.position ∧ c.position < p + s.size ∧
      (c.position = p → c.mode = .insert → c.inserts w = true) ∧ (c.mode = .replace → c.remove ≠ []) := by
  induction s generalizing above p with
  | nil => simp [script]
  | gap g next ih =>
    intro c hc
    obtain ⟨h1, h2, h3, h4⟩ := ih h c hc
    simp only [size]
    refine ⟨by omega, by omega, fun hp hm => ?_, h4⟩
    exact h3 (by omega) hm
  | element tag selfClosing inner close next ih1 ih2 =>
    obtain ⟨⟨hin, hfit⟩, h1, h2⟩ := h
    have htag : 0 < tag.length := Patch.tag_length_pos hin
    simp only [size]
    intro c hc
    simp only [script, Script.changes_append, List.mem_append] at hc
    rcases hc with hc | hc | hc | hc
    · obtain ⟨g1, g2, g3, g4⟩ := Patch.mem_head hin hfit c hc
      dsimp only at g1 g2 g3
      refine ⟨g1, ?_, g3, g4⟩
      rcases g2 with g2 | ⟨g2, -, -, hsome⟩
      · omega
      · have hlen : 0 < (close.getD []).length := Patch.close_length_pos hin hsome
        omega
    · obtain ⟨g1, g2, -, g4⟩ := ih1 h1 c hc
      exact ⟨by omega, by omega, fun hp => by omega, g4⟩
    · obtain ⟨g1, g2, g3, hsome⟩ := Patch.mem_tail hin hc
      simp only [Spot.closePos] at g1
      have hlen : 0 < (close.getD []).length := Patch.close_length_pos hin hsome
      exact ⟨by omega, by omega, fun hp => by omega, fun _ => g3⟩
    · obtain ⟨g1, g2, -, g4⟩ := ih2 h2 c hc
      exact ⟨by omega, by omega, fun hp => by omega, g4⟩

/-- Two edits share a place only where `w` stands in front of the first child of an element that
gets another first child. -/
theorem pairwise_script (h : s.Each (Planned w content plan) above p) :
    (s.script plan above p).changes.Pairwise fun a b =>
      a.key = b.key → a.inserts w = false ∧ b.inserts w = true := by
  induction s generalizing above p with
  | nil => exact List.Pairwise.nil
  | gap g next ih => exact ih h
  | element tag selfClosing inner close next ih1 ih2 =>
    obtain ⟨⟨hin, hfit⟩, h1, h2⟩ := h
    simp only [script, Script.changes_append]
    have hhead := Patch.mem_head hin hfit
    have hinner := mem_script h1
    have hnext := mem_script h2
    have hsep : ∀ {a b : Change}, a.position < b.position → a.key = b.key →
        a.inserts w = false ∧ b.inserts w = true := by
      intro a b hlt hkey
      simp only [Change.key, Prod.mk.injEq] at hkey
      omega
    refine List.pairwise_append.mpr ⟨(Patch.pairwise_head hfit).imp fun h hk => absurd hk h, ?_, ?_⟩
    · refine List.pairwise_append.mpr ⟨ih1 h1, List.pairwise_append.mpr ⟨?_, ih2 h2, ?_⟩, ?_⟩
      · cases close <;> cases plan ⟨node p tag selfClosing inner _, above⟩ <;> simp [Patch.tail]
      · intro a ha b hb
        obtain ⟨g1, -, -, hsome⟩ := Patch.mem_tail hin ha
        have hlen : 0 < (close.getD []).length := Patch.close_length_pos hin hsome
        have := (hnext b hb).1
        simp only [Spot.closePos] at g1
        exact hsep (by omega)
      · intro a ha b hb
        have ha2 := (hinner a ha).2.1
        rcases List.mem_append.mp hb with hb | hb
        · have hb1 := (Patch.mem_tail hin hb).1
          simp only [Spot.closePos] at hb1
          exact hsep (by omega)
        · have := (hnext b hb).1
          exact hsep (by omega)
    · intro a ha b hb
      obtain ⟨-, ha2, -, -⟩ := hhead a ha
      dsimp only at ha2
      rcases ha2 with ha2 | ⟨ha2, hmode, hw, hsome⟩
      · refine hsep ?_
        rcases List.mem_append.mp hb with hb | hb
        · have := (hinner b hb).1
          omega
        · rcases List.mem_append.mp hb with hb | hb
          · have hb1 := (Patch.mem_tail hin hb).1
            simp only [Spot.closePos] at hb1
            omega
          · have := (hnext b hb).1
            omega
      · have hlen : 0 < (close.getD []).length := Patch.close_length_pos hin hsome
        intro hkey
        have hcode : b.mode.code = 0 := by
          have := (Prod.mk.inj hkey).2
          rw [hmode] at this
          exact this.symm
        have hpos : b.position = (p + tag.length : Nat) := by
          rw [← (Prod.mk.inj hkey).1, ha2]
          push_cast
          rfl
        refine ⟨hw, ?_⟩
        rcases List.mem_append.mp hb with hb | hb
        · refine (hinner b hb).2.2.1 hpos ?_
          rcases Script.mode_of_fits (fits_script h1) b hb with hm | hm
          · exact hm
          · rw [hm] at hcode
            cases hcode
        · rcases List.mem_append.mp hb with hb | hb
          · have hm := (Patch.mem_tail hin hb).2.1
            rw [hm] at hcode
            cases hcode
          · have := (hnext b hb).1
            omega

/-- Changes that are those of the plan, in some order with `w` last, give the patched tree. -/
theorem applyChanges_patch {cs : List Change} (h : s.Each (Planned w content plan) [] 0)
    (hperm : cs.Perm (s.script plan [] 0).changes)
    (hcs : cs.Pairwise fun a b => a.inserts w = true → b.inserts w = true) :
    applyChanges (render s.pieces) cs = .ok (render (s.patch plan [] 0).pieces) := by
  rw [← source_script h, ← target_script h]
  refine Script.applyChanges_eq (fits_script h) ?_ (keyed_eq_of_perm w hperm (pairwise_script h) hcs)
  exact Script.sorted_of_fits (fits_script h) fun c hc => (mem_script h c hc).2.2.2

end Source

end Codemod.Markup
