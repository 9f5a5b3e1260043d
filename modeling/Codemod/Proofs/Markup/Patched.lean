import Codemod.Proofs.Markup.Patch

namespace Codemod.Markup

open Edit

/-- A name without a rule of its own: its elements have end tags, hold markup and end no other. -/
structure Ordinary (name : Bytes) : Prop where
  void : isVoid name = false
  optional : hasOptionalEnd name = false
  raw : rawTextNames.contains (name.map Bytes.lowerLetter) = false
  ends : ∀ x ∈ optionalEnds, x.2.contains name = false

/-- Only names of one word have rules of their own. -/
theorem Ordinary.of_dash {name : Bytes} (h : 45 ∈ name) : Ordinary name := by
  have hall : (∀ v ∈ voidNames, 45 ∉ v) ∧ (∀ r ∈ rawTextNames, 45 ∉ r) ∧
      ∀ x ∈ optionalEnds, 45 ∉ x.1 ∧ ∀ v ∈ x.2, 45 ∉ v := by decide +kernel
  obtain ⟨hvoid, hraw, hends⟩ := hall
  have hdash : (45 : UInt8) ∈ name.map Bytes.lowerLetter := List.mem_map.mpr ⟨45, h, rfl⟩
  refine ⟨?_, ?_, ?_, fun x hx => ?_⟩
  · rw [isVoid, ← Bool.not_eq_true, List.contains_iff_mem]
    exact fun hmem => hvoid name hmem h
  · rw [hasOptionalEnd, Option.isSome_eq_false_iff, Option.isNone_iff_eq_none, List.lookup_eq_none_iff]
    intro x hx
    rw [bne_iff_ne]
    rintro rfl
    exact (hends x hx).1 h
  · rw [← Bool.not_eq_true, List.contains_iff_mem]
    exact fun hmem => hraw _ hmem hdash
  · rw [← Bool.not_eq_true, List.contains_iff_mem]
    exact fun hmem => (hends x hx).2 name hmem h

theorem Ordinary.closes {name : Bytes} (h : Ordinary name) (m : Bytes) : closesImplicitly m name = false := by
  unfold closesImplicitly
  cases hl : optionalEnds.lookup m with
  | none => rfl
  | some ends =>
    obtain ⟨l₁, l₂, hsplit, -⟩ := List.lookup_eq_some_iff.mp hl
    exact h.ends (m, ends) (by rw [hsplit]; simp)

theorem Ordinary.closed {name : Bytes} (h : Ordinary name) (next : Bytes) :
    closesImplicitly name next = false := by
  have hopt := h.optional
  unfold hasOptionalEnd at hopt
  have hnone : optionalEnds.lookup name = none := by
    cases hl : optionalEnds.lookup name with
    | none => rfl
    | some ends => simp [hl] at hopt
  simp [closesImplicitly, hnone]

theorem Ordinary.rawName? {tag : Bytes} (h : Ordinary (startTagName tag)) : rawName? tag = none := by
  simp only [Markup.rawName?, h.raw]
  rfl

/-- The name of a tag decides whether raw text follows it. -/
theorem rawName?_of_name {tag tag' : Bytes} (h : startTagName tag' = startTagName tag) :
    rawName? tag' = rawName? tag := by
  rw [Markup.rawName?, h, ← Markup.rawName?]

theorem isNameEnd_of_isLetter {b : UInt8} (h : Bytes.isLetter b = true) : isNameEnd b = false := by
  rw [Bool.eq_false_iff]
  intro hend
  simp only [isNameEnd, Bool.or_eq_true, TagState.isSpace_iff, beq_iff_eq, toUInt8_slash, toUInt8_greater] at hend
  rcases hend with ((rfl | rfl | rfl | rfl | rfl) | rfl) | rfl <;> exact absurd h (by decide)

/-- A name as a tag has it. -/
structure TagName (name : Bytes) : Prop where
  letter : name.head?.any Bytes.isLetter = true
  plain : ∀ b ∈ name, isNameEnd b = false

theorem IsStartTag.tagName {tag : Bytes} {selfClosing : Bool} (h : IsStartTag tag selfClosing) :
    TagName (startTagName tag) := by
  obtain ⟨d, s, rfl, hd, -⟩ := h.eq_cons
  have hd' : isNameEnd d = false := isNameEnd_of_isLetter hd
  refine ⟨?_, fun b hb => by simpa using List.mem_takeWhile_imp hb⟩
  simp [startTagName, hd', hd]

theorem TagName.takeWhile {name : Bytes} (h : TagName name) (y : Bytes) :
    (name ++ 62 :: y).takeWhile (!isNameEnd ·) = name := by
  rw [List.takeWhile_append_of_pos (by simpa using h.plain), List.takeWhile_cons_of_neg (by decide), List.append_nil]

theorem TagName.finish {name : Bytes} (h : TagName name) : TagState.name.finish (name ++ [62]) = some (false, []) := by
  rw [name_finish_eq, List.dropWhile_append_of_pos (by simpa using h.plain)]
  rfl

theorem openTag_eq (name : Bytes) : openTag name = 60 :: (name ++ [62]) := by
  simp [openTag, Bytes.concat]
  rfl

theorem closeTag_eq (name : Bytes) : closeTag name = 60 :: 47 :: (name ++ [62]) := by
  simp [closeTag, Bytes.concat]
  rfl

theorem TagName.head_append {name : Bytes} (h : TagName name) (y : Bytes) :
    (name ++ y).head?.any Bytes.isLetter = true := by
  cases name with
  | nil => simpa using h.letter
  | cons b name => simpa using h.letter

theorem TagName.isStartTag {name : Bytes} (h : TagName name) : IsStartTag (openTag name) false := by
  rw [openTag_eq]
  exact ⟨rfl, h.head_append _, h.finish⟩

theorem TagName.startTagName {name : Bytes} (h : TagName name) : startTagName (openTag name) = name := by
  rw [openTag_eq]
  exact h.takeWhile []

theorem TagName.isEndTag {name : Bytes} (h : TagName name) : IsEndTag (closeTag name) := by
  rw [closeTag_eq]
  exact ⟨rfl, h.head_append _, false, h.finish⟩

theorem TagName.endTagName {name : Bytes} (h : TagName name) : endTagName (closeTag name) = name := by
  rw [closeTag_eq]
  exact h.takeWhile []

namespace Source

theorem Enters.parent {parent parent' : Option Bytes} (h : ∀ n, Enters parent [] n → Enters parent' [] n)
    {held : List Bytes} {name : Bytes} (hn : Enters parent held name) : Enters parent' held name := by
  match held, hn with
  | [], hn => exact h name hn
  | [_], hn => exact hn

theorem Nested.parent {parent parent' : Option Bytes} (h : ∀ n, Enters parent [] n → Enters parent' [] n)
    {s : Source} {held : List Bytes} (hs : s.Nested parent held) : s.Nested parent' held := by
  induction s generalizing held with
  | nil => trivial
  | gap g next ih => exact ⟨hs.1, ih hs.2⟩
  | element tag selfClosing inner close next _ ih => exact ⟨hs.1.parent h, hs.2.1, ih hs.2.2⟩

/-- Every name may come first in an element of an ordinary name. -/
theorem enters_ordinary {name : Bytes} (h : Ordinary name) (n : Bytes) : Enters (some name) [] n := by
  rintro m ⟨⟩
  exact h.closed n

/-- An ordinary name ends no open element, so there is none. -/
theorem Enters.eq_nil {parent : Option Bytes} {held : List Bytes} {name : Bytes} (hord : Ordinary name)
    (h : Enters parent held name) : held = [] := by
  match held, h with
  | [], _ => rfl
  | [last], h =>
    have h : closesImplicitly last name = true := h
    rw [hord.closes] at h
    cases h

theorem spine_closed (tag c : Bytes) (inner next : Source) (held : List Bytes) :
    (element tag false inner (some c) next).spine held = next.spine [] := by
  simp [spine]

/-- A closed element of an ordinary name may hold what is nested anywhere, if that leaves only elements open that
may do without an end tag. -/
theorem nested_ordinary {tag c : Bytes} {inner next : Source} {outer parent : Option Bytes}
    (hord : Ordinary (startTagName tag)) (hname : endTagName c = startTagName tag) (hinner : inner.Nested outer [])
    (hspine : ∀ m ∈ inner.spine [], hasOptionalEnd m = true) (hnext : next.Nested parent []) :
    (element tag false inner (some c) next).Nested parent [] := by
  have hleaf : leaf tag false = false := by simp [leaf, hord.void]
  have hne : ∀ m ∈ inner.spine [], m ≠ startTagName tag := by
    rintro _ hm rfl
    exact Bool.noConfusion (hord.optional.symm.trans (hspine _ hm))
  refine ⟨fun m _ => hord.closes m, ?_, by simpa using hnext⟩
  rw [if_neg (by simp [hleaf])]
  exact ⟨hinner.parent fun n _ => enters_ordinary hord n, hname, fun m hm => ⟨hne m hm, hspine m hm⟩⟩

/-- What a closed element leaves open inside may do without an end tag. -/
theorem Nested.optional_inner {tag : Bytes} {selfClosing : Bool} {inner next : Source} {close : Option Bytes}
    {parent : Option Bytes} {held : List Bytes} (h : (element tag selfClosing inner close next).Nested parent held)
    (hclosed : (Source.leaf tag selfClosing || close.isSome) = true) : ∀ m ∈ inner.spine [], hasOptionalEnd m = true := by
  obtain ⟨-, hbody, -⟩ := h
  split at hbody
  · rw [hbody.1]
    simp [spine]
  · next hleaf =>
    obtain ⟨c, rfl⟩ : ∃ c, close = some c := Option.isSome_iff_exists.mp (by simpa [hleaf] using hclosed)
    exact fun m hm => (hbody.2.2 m hm).2

/-- The elements open behind an element. -/
def openBehind (tag : Bytes) (selfClosing : Bool) (inner : Source) (close : Option Bytes) : List Bytes :=
  if leaf tag selfClosing || close.isSome then [] else inner.spine [] ++ [startTagName tag]

/-- Other content under a start tag of the same name, which leaves less open inside, and nothing else open if there is
no end tag. -/
theorem Nested.replace {tag tag' : Bytes} {selfClosing : Bool} {inner inner' next after : Source} {close : Option Bytes}
    {parent parent' : Option Bytes} {held : List Bytes} (h : (element tag selfClosing inner close next).Nested parent held)
    (hname : startTagName tag' = startTagName tag) (hparent : ∀ n, Enters parent [] n → Enters parent' [] n)
    (hnil : Source.leaf tag selfClosing = true → inner' = .nil) (hinner : inner'.Nested (some (startTagName tag)) [])
    (hspine : ∀ m ∈ inner'.spine [], m ∈ inner.spine []) (hopen : close = none → inner'.spine [] = inner.spine [])
    (hafter : after.Nested parent' (openBehind tag selfClosing inner close)) :
    (element tag' selfClosing inner' close after).Nested parent' held ∧
      (element tag' selfClosing inner' close after).spine held = after.spine (openBehind tag selfClosing inner close) := by
  obtain ⟨henter, hbody, -⟩ := h
  have hleaf : Source.leaf tag' selfClosing = Source.leaf tag selfClosing := by simp only [Source.leaf, hname]
  have hbehind : openBehind tag' selfClosing inner' close = openBehind tag selfClosing inner close := by
    cases close with
    | none => simp only [openBehind, hleaf, hname, hopen rfl]
    | some c => simp [openBehind]
  rw [← hbehind] at hafter ⊢
  refine ⟨⟨hname ▸ henter.parent hparent, ?_, hafter⟩, rfl⟩
  rw [hleaf, hname]
  split at hbody
  · next hl =>
    rw [if_pos hl]
    exact ⟨hnil hl, hbody.2⟩
  · next hl =>
    rw [if_neg hl]
    refine ⟨hinner, ?_⟩
    cases close with
    | none => exact hbody.2
    | some c => exact ⟨hbody.2.1, fun m hm => hbody.2.2 m (hspine m hm)⟩

end Source

/-- An element of an ordinary name has an end tag or closes itself. -/
theorem closed_of_ordinary {x : Spot} {content : Bytes} (hx : x.In content) (hord : Ordinary x.name) :
    x.selfClosing = true ∨ x.close.isSome := by
  by_cases hs : x.selfClosing = true
  · exact Or.inl hs
  · refine Or.inr ?_
    have hleaf : x.leaf = false := by
      simp only [Spot.leaf, Source.leaf, hs, Bool.false_or]
      exact hord.void
    cases hc : x.close with
    | some c => rfl
    | none =>
      have := hx.omitted hleaf hc
      rw [hord.optional] at this
      cases this

theorem leaf_or_close_of_ordinary {x : Spot} {content : Bytes} (hx : x.In content) (hord : Ordinary x.name) :
    (x.leaf || x.close.isSome) = true := by
  rcases closed_of_ordinary hx hord with h | h <;> simp [Spot.leaf, Source.leaf, h]

/-- A tree that can be put behind a start tag: every element of it is closed. -/
structure Source.Standalone (s : Source) : Prop where
  follows : Follows s.pieces
  nested : s.Nested none []
  closed : s.spine [] = []

namespace Patch

/-- The start tag after an edit that adds children. -/
def filledTag (edits : Script) (selfClosing : Bool) : Bytes :=
  if selfClosing then edits.target ++ ">" else edits.target

/-- The edit leaves an element of the same kind that is read back. -/
def Sound (x : Spot) : Patch → Prop
  | keep => True
  | front gaps => Ordinary x.name ∧ Precedes (gaps.map Gap.piece)
  | retag edits => IsStartTag edits.target x.selfClosing ∧ startTagName edits.target = x.name
  | fill edits first => Ordinary x.name ∧ IsStartTag (filledTag edits x.selfClosing) false ∧
    startTagName (filledTag edits x.selfClosing) = x.name ∧ first.Standalone
  | rename name => Ordinary x.name ∧ Ordinary name ∧ TagName name

variable {w content : Bytes} {x : Spot} {k : Patch}

theorem pieces_foldr_gap (gaps : List Gap) (s : Source) :
    (gaps.foldr Source.gap s).pieces = gaps.map Gap.piece ++ s.pieces := by
  induction gaps with
  | nil => rfl
  | cons g gaps ih => simp [Source.pieces, ih]

/-- The pieces of an element after the edit. -/
theorem rewrites (hx : x.In content) (hfit : k.Fits w x) (h : k.Sound x) {inner next : Source}
    (hnil : x.inner = .nil → inner = .nil) (hinner : Rewrites x.inner.pieces inner.pieces)
    {ps : List Piece} (hnext : Rewrites ps next.pieces) :
    Rewrites (.start x.tag x.selfClosing :: (x.inner.pieces ++ (x.close.toList.map Piece.stop ++ ps)))
      (k.source x.tag x.selfClosing inner x.close next).pieces := by
  have hrest : Rewrites (x.inner.pieces ++ (x.close.toList.map Piece.stop ++ ps))
      (inner.pieces ++ (x.close.toList.map Piece.stop ++ next.pieces)) :=
    hinner.append ((Rewrites.refl _).append hnext)
  have hself : x.selfClosing = true → x.inner = .nil ∧ x.close = none :=
    fun hs => hx.leaf (by simp [Spot.leaf, Source.leaf, hs])
  cases k with
  | keep => exact .keep _ hrest
  | front gaps =>
    rw [source, pieces_foldr_gap]
    exact .beforeStart h.2 (.keep _ hrest)
  | retag edits =>
    obtain ⟨htag, hname⟩ := h
    exact .respell htag (rawName?_of_name hname) hrest
  | fill edits first =>
    obtain ⟨hord, htag, hname, hfirst⟩ := h
    have hraw : rawName? (filledTag edits x.selfClosing) = none := Ordinary.rawName? (hname ▸ hord)
    have htagName : TagName x.name := hx.start.tagName
    cases hs : x.selfClosing with
    | true =>
      obtain ⟨h1, h2⟩ := hself hs
      have hclose : Follows (first.pieces ++ [.stop (closeTag x.name)]) := by
        intro qs hqs
        rw [List.append_assoc]
        exact hfirst.follows _ (.stop htagName.isEndTag (by rw [htagName.endTagName]; exact hord.void) hqs)
      rw [hs] at htag hraw
      have hrw : Rewrites (.start x.tag true :: ps) (.start (filledTag edits true) false ::
          ((first.pieces ++ [.stop (closeTag x.name)]) ++ next.pieces)) :=
        .start hord.rawName? htag hraw hclose hnext
      simpa [source, h1, h2, Source.pieces, filledTag, Spot.name] using hrw
    | false =>
      rw [hs] at htag hraw
      have hrw : Rewrites (.start x.tag false :: (x.inner.pieces ++ (x.close.toList.map Piece.stop ++ ps)))
          (.start (filledTag edits false) false ::
            (first.pieces ++ (inner.pieces ++ (x.close.toList.map Piece.stop ++ next.pieces)))) :=
        .start hord.rawName? htag hraw hfirst.follows hrest
      simpa [source, Source.pieces, Source.pieces_append, filledTag] using hrw
  | rename name =>
    obtain ⟨hord, hord', hname⟩ := h
    have hraw : rawName? (openTag name) = none := Ordinary.rawName? (by rw [hname.startTagName]; exact hord')
    have hvoid : isVoid (endTagName (closeTag name)) = false := by rw [hname.endTagName]; exact hord'.void
    cases hs : x.selfClosing with
    | true =>
      obtain ⟨h1, h2⟩ := hself hs
      have hclose : Follows [.stop (closeTag name)] := fun qs hqs => .stop hname.isEndTag hvoid hqs
      have hrw : Rewrites (.start x.tag true :: ps)
          (.start (openTag name) false :: ([.stop (closeTag name)] ++ next.pieces)) :=
        .start hord.rawName? hname.isStartTag hraw hclose hnext
      simpa [source, h1, hnil h1, h2, Source.pieces] using hrw
    | false =>
      have hsome : x.close.isSome := hfit.resolve_left (by simp [hs])
      obtain ⟨c, hc⟩ := Option.isSome_iff_exists.mp hsome
      have hend : endsRaw c = false := by
        rw [endsRaw, (hx.stop c hc).2]
        exact hord.raw
      have htail : Rewrites (x.inner.pieces ++ (.stop c :: ps)) (inner.pieces ++ (.stop (closeTag name) :: next.pieces)) :=
        hinner.append (.restop hend hname.isEndTag hvoid hnext)
      have hrw : Rewrites (.start x.tag false :: (x.inner.pieces ++ (.stop c :: ps)))
          (.start (openTag name) false :: (inner.pieces ++ (.stop (closeTag name) :: next.pieces))) :=
        .retag hord.rawName? hname.isStartTag hraw htail
      simpa [source, hc, Source.pieces] using hrw

theorem nested_foldr_gap {gaps : List Gap} {s : Source} {parent : Option Bytes} (h : s.Nested parent []) :
    (gaps.foldr Source.gap s).Nested parent [] := by
  induction gaps with
  | nil => exact h
  | cons g gaps ih => exact ⟨rfl, ih⟩

theorem spine_foldr_gap (gaps : List Gap) (s : Source) : (gaps.foldr Source.gap s).spine [] = s.spine [] := by
  induction gaps with
  | nil => rfl
  | cons g gaps ih => exact ih

section Nested

variable {parent parent' : Option Bytes} {held : List Bytes} {inner next after : Source}

/-- An element under another start tag of its name. -/
theorem nested_same (hx : x.In content) {tag : Bytes} (hname : startTagName tag = x.name)
    (hparent : ∀ n, Source.Enters parent [] n → Source.Enters parent' [] n) (hnil : x.inner = .nil → inner = .nil)
    (hs : (Source.element x.tag x.selfClosing x.inner x.close next).Nested parent held)
    (hinner : inner.Nested (some x.name) [] ∧ inner.spine [] = x.inner.spine [])
    (hnext : ∀ held, next.Nested parent held → after.Nested parent' held ∧ after.spine held = next.spine held) :
    (Source.element tag x.selfClosing inner x.close after).Nested parent' held ∧
      (Source.element tag x.selfClosing inner x.close after).spine held =
        (Source.element x.tag x.selfClosing x.inner x.close next).spine held := by
  obtain ⟨hafter, hspine⟩ := hnext _ hs.2.2
  obtain ⟨h1, h2⟩ := hs.replace hname hparent (fun hl => hnil (hx.leaf hl).1) hinner.1 (by simp [hinner.2])
    (fun _ => hinner.2) hafter
  exact ⟨h1, h2.trans hspine⟩

/-- Behind an element of an ordinary name no element is open. -/
theorem nested_behind (hx : x.In content) (hord : Ordinary x.name)
    (hs : (Source.element x.tag x.selfClosing x.inner x.close next).Nested parent held)
    (hnext : ∀ held, next.Nested parent held → after.Nested parent' held ∧ after.spine held = next.spine held) :
    after.Nested parent' [] ∧
      after.spine [] = (Source.element x.tag x.selfClosing x.inner x.close next).spine held := by
  have hbehind : Source.openBehind x.tag x.selfClosing x.inner x.close = [] :=
    if_pos (leaf_or_close_of_ordinary hx hord)
  exact hbehind ▸ hnext _ hs.2.2

/-- An element with more in front of its content. -/
theorem nested_fill {edits : Script} {first : Source} (hx : x.In content) (hfit : (fill edits first).Fits w x)
    (h : (fill edits first).Sound x) (hs : (Source.element x.tag x.selfClosing x.inner x.close next).Nested parent [])
    (hinner : inner.Nested (some x.name) [] ∧ inner.spine [] = x.inner.spine []) (hafter : after.Nested parent' []) :
    ((fill edits first).source x.tag x.selfClosing inner x.close after).Nested parent' [] ∧
      ((fill edits first).source x.tag x.selfClosing inner x.close after).spine [] = after.spine [] := by
  obtain ⟨hord, -, hname, hfirst⟩ := h
  have hord' : Ordinary (startTagName (filledTag edits x.selfClosing)) := hname ▸ hord
  by_cases hself : x.selfClosing = true
  · have hsource : (fill edits first).source x.tag x.selfClosing inner x.close after =
        .element (filledTag edits x.selfClosing) false first (some (closeTag x.name)) after := by
      simp [source, filledTag, hself, Spot.name]
    rw [hsource, Source.spine_closed]
    refine ⟨Source.nested_ordinary hord' ?_ hfirst.nested ?_ hafter, rfl⟩
    · exact hx.start.tagName.endTagName.trans hname.symm
    · simp [hfirst.closed]
  · have hfit := hfit.1
    rw [if_neg hself] at hfit
    obtain ⟨c, hc⟩ := Option.isSome_iff_exists.mp hfit.2
    have hsource : (fill edits first).source x.tag x.selfClosing inner x.close after =
        .element (filledTag edits x.selfClosing) false (first.append inner) (some c) after := by
      simp [source, filledTag, hself, hc]
    rw [hsource, Source.spine_closed]
    have hbody : (first.append inner).Nested (some x.name) [] := by
      rw [Source.nested_append, hfirst.closed]
      exact ⟨hfirst.nested.parent fun n _ => Source.enters_ordinary hord n, hinner.1⟩
    have hspine : (first.append inner).spine [] = x.inner.spine [] := by
      rw [Source.spine_append, hfirst.closed, hinner.2]
    refine ⟨Source.nested_ordinary hord' ((hx.stop c hc).2.trans hname.symm) hbody ?_ hafter, rfl⟩
    rw [hspine]
    exact hs.optional_inner (by simp [hc])

/-- An element of another name. -/
theorem nested_rename {name : Bytes} (hx : x.In content) (h : (rename name).Sound x)
    (hs : (Source.element x.tag x.selfClosing x.inner x.close next).Nested parent [])
    (hinner : inner.Nested (some x.name) [] ∧ inner.spine [] = x.inner.spine []) (hafter : after.Nested parent' []) :
    ((rename name).source x.tag x.selfClosing inner x.close after).Nested parent' [] ∧
      ((rename name).source x.tag x.selfClosing inner x.close after).spine [] = after.spine [] := by
  obtain ⟨hord, hord', htag⟩ := h
  have hname : endTagName (closeTag name) = startTagName (openTag name) := by
    rw [htag.endTagName, htag.startTagName]
  have hopen : Ordinary (startTagName (openTag name)) := by
    rw [htag.startTagName]
    exact hord'
  refine ⟨Source.nested_ordinary hopen hname hinner.1 ?_ hafter, Source.spine_closed ..⟩
  rw [hinner.2]
  exact hs.optional_inner (leaf_or_close_of_ordinary hx hord)

/-- The edit keeps the tree nested, if it does so for what the element holds. -/
theorem nested (hx : x.In content) (hfit : k.Fits w x) (h : k.Sound x)
    (hparent : ∀ n, Source.Enters parent [] n → Source.Enters parent' [] n) (hnil : x.inner = .nil → inner = .nil)
    (hs : (Source.element x.tag x.selfClosing x.inner x.close next).Nested parent held)
    (hinner : inner.Nested (some x.name) [] ∧ inner.spine [] = x.inner.spine [])
    (hnext : ∀ held, next.Nested parent held → after.Nested parent' held ∧ after.spine held = next.spine held) :
    (k.source x.tag x.selfClosing inner x.close after).Nested parent' held ∧
      (k.source x.tag x.selfClosing inner x.close after).spine held =
        (Source.element x.tag x.selfClosing x.inner x.close next).spine held := by
  cases k with
  | keep => exact nested_same hx rfl hparent hnil hs hinner hnext
  | front gaps =>
    obtain rfl := hs.1.eq_nil h.1
    obtain ⟨h1, h2⟩ := nested_same hx rfl hparent hnil hs hinner hnext
    exact ⟨nested_foldr_gap h1, (spine_foldr_gap gaps _).trans h2⟩
  | retag edits => exact nested_same hx h.2 hparent hnil hs hinner hnext
  | fill edits first =>
    obtain rfl := hs.1.eq_nil h.1
    obtain ⟨hafter, hspine⟩ := nested_behind hx h.1 hs hnext
    obtain ⟨h1, h2⟩ := nested_fill hx hfit h hs hinner hafter
    exact ⟨h1, h2.trans hspine⟩
  | rename name =>
    obtain rfl := hs.1.eq_nil h.1
    obtain ⟨hafter, hspine⟩ := nested_behind hx h.1 hs hnext
    obtain ⟨h1, h2⟩ := nested_rename hx h hs hinner hafter
    exact ⟨h1, h2.trans hspine⟩

end Nested

end Patch

namespace Source

variable {w content : Bytes} {plan : Place → Patch} {above : List Element} {p : Nat} {s : Source}

theorem rewrites_patch (hplan : s.Each (Planned w content plan) above p)
    (hsound : s.Each (fun x => (plan x.place).Sound x) above p) :
    Rewrites s.pieces (s.patch plan above p).pieces := by
  induction s generalizing above p with
  | nil => exact .nil
  | gap g next ih => exact .keep _ (ih hplan hsound)
  | element tag selfClosing inner close next ih1 ih2 =>
    obtain ⟨⟨hin, hfit⟩, hplan1, hplan2⟩ := hplan
    obtain ⟨hsound, hsound1, hsound2⟩ := hsound
    exact Patch.rewrites hin hfit hsound patch_nil_iff (ih1 hplan1 hsound1) (ih2 hplan2 hsound2)

theorem nested_patch {parent parent' : Option Bytes} {held : List Bytes}
    (hparent : ∀ n, Enters parent [] n → Enters parent' [] n) (hn : s.Nested parent held)
    (hplan : s.Each (Planned w content plan) above p)
    (hsound : s.Each (fun x => (plan x.place).Sound x) above p) :
    (s.patch plan above p).Nested parent' held ∧ (s.patch plan above p).spine held = s.spine held := by
  induction s generalizing above p parent parent' held with
  | nil => exact ⟨trivial, rfl⟩
  | gap g next ih =>
    obtain ⟨h1, h2⟩ := ih hparent hn.2 hplan hsound
    exact ⟨⟨hn.1, h1⟩, h2⟩
  | element tag selfClosing inner close next ih1 ih2 =>
    obtain ⟨⟨hin, hfit⟩, hplan1, hplan2⟩ := hplan
    obtain ⟨hsound, hsound1, hsound2⟩ := hsound
    exact Patch.nested hin hfit hsound hparent patch_nil_iff hn (ih1 (fun _ h => h) hn.inner hplan1 hsound1)
      (fun held hnext => ih2 hparent hnext hplan2 hsound2)

/-- Sound edits keep a template well-formed. -/
theorem WellFormed.patch (hs : s.WellFormed) (hplan : s.Each (Planned w content plan) [] 0)
    (hsound : s.Each (fun x => (plan x.place).Sound x) [] 0) : (s.patch plan [] 0).WellFormed := by
  obtain ⟨h1, h2⟩ := nested_patch (fun _ h => h) hs.nested hplan hsound
  refine ⟨(rewrites_patch hplan hsound).reads hs.reads, h1, ?_⟩
  rw [h2]
  exact hs.optional

end Source

/-- Bytes that are one start tag of a name. -/
structure WholeTag (tag name : Bytes) (selfClosing : Bool) : Prop where
  isStartTag : IsStartTag tag selfClosing
  name : startTagName tag = name

/-- Markup that can be put behind a start tag: tags and text end in it, and so do its elements. -/
def StandsAlone (text : Bytes) : Prop := ∃ s : Source, s.Standalone ∧ render s.pieces = text

open Classical in
/-- A tree with a given text, one that stands alone if there is any. -/
noncomputable def fragment (text : Bytes) : Source :=
  if h : StandsAlone text then h.choose else .gap (.text text) .nil

theorem render_fragment (text : Bytes) : render (fragment text).pieces = text := by
  unfold fragment
  split
  · next h => exact h.choose_spec.2
  · simp [Source.pieces, Gap.piece, Piece.raw]

theorem StandsAlone.fragment {text : Bytes} (h : StandsAlone text) : (fragment text).Standalone := by
  rw [Markup.fragment, dif_pos h]
  exact h.choose_spec.1

/-- Pieces that can be put in front of a tag, if not behind every text. -/
def Fills (xs : List Piece) : Prop := ∀ qs, Leads (render qs) → Reads none qs → Reads none (xs ++ qs)

/-- A tree that can be the content of an element. -/
structure Source.Filling (s : Source) : Prop where
  fills : Fills s.pieces
  nested : s.Nested none []
  closed : s.spine [] = []

namespace Source

theorem filling_nil : nil.Filling := ⟨fun _ _ h => h, trivial, rfl⟩

theorem standalone_nil : nil.Standalone := ⟨fun _ h => h, trivial, rfl⟩

/-- Text at the end of an element. -/
theorem filling_text {v : Bytes} (hv : calm v = true) : (gap (.text v) nil).Filling :=
  ⟨fun _ hqs hread => .text hv hqs hread, ⟨rfl, trivial⟩, rfl⟩

section Tagged

variable {tag name : Bytes} {inner next : Source}

/-- A closed element of an ordinary name. -/
def tagged (tag name : Bytes) (inner next : Source) : Source :=
  element tag false inner (some (closeTag name)) next

theorem pieces_tagged : (tagged tag name inner next).pieces =
    .start tag false :: (inner.pieces ++ (.stop (closeTag name) :: next.pieces)) := rfl

theorem render_tagged : render (tagged tag name inner next).pieces =
    tag ++ (render inner.pieces ++ (closeTag name ++ render next.pieces)) := by
  simp [pieces_tagged, Piece.raw]

variable (htag : WholeTag tag name false) (hord : Ordinary name) (hname : TagName name) (hinner : inner.Filling)

include htag hord hname hinner

theorem reads_tagged {qs : List Piece} (hread : Reads none (next.pieces ++ qs)) :
    Reads none ((tagged tag name inner next).pieces ++ qs) := by
  have hraw : rawName? tag = none := Ordinary.rawName? (htag.name ▸ hord)
  have hstop : Reads none (.stop (closeTag name) :: (next.pieces ++ qs)) := by
    refine .stop hname.isEndTag ?_ hread
    rw [hname.endTagName]
    exact hord.void
  rw [pieces_tagged, List.cons_append, List.append_assoc]
  refine .start htag.isStartTag ?_
  rw [hraw]
  exact hinner.fills _ (hname.isEndTag.leads _) hstop

theorem nested_tagged (hnext : next.Nested none []) : (tagged tag name inner next).Nested none [] := by
  refine nested_ordinary (htag.name ▸ hord) (hname.endTagName.trans htag.name.symm) hinner.nested ?_ hnext
  simp [hinner.closed]

theorem standalone_tagged (hnext : next.Standalone) : (tagged tag name inner next).Standalone := by
  refine ⟨fun qs hqs => reads_tagged htag hord hname hinner (hnext.follows qs hqs),
    nested_tagged htag hord hname hinner hnext.nested, ?_⟩
  simpa [tagged, spine] using hnext.closed

theorem filling_tagged (hnext : next.Filling) : (tagged tag name inner next).Filling := by
  refine ⟨fun qs hqs hread => reads_tagged htag hord hname hinner (hnext.fills qs hqs hread),
    nested_tagged htag hord hname hinner hnext.nested, ?_⟩
  simpa [tagged, spine] using hnext.closed

/-- A line break in front of an element. -/
theorem standalone_break (hnext : next.Standalone) :
    (gap (.text [10]) (tagged tag name inner next)).Standalone := by
  have h := standalone_tagged htag hord hname hinner hnext
  exact ⟨fun qs hqs => .text rfl (htag.isStartTag.leads _) (h.follows qs hqs), ⟨rfl, h.nested⟩, h.closed⟩

theorem filling_break (hnext : next.Filling) :
    (gap (.text [10]) (tagged tag name inner next)).Filling := by
  have h := filling_tagged htag hord hname hinner hnext
  exact ⟨fun qs hqs hread => .text rfl (htag.isStartTag.leads _) (h.fills qs hqs hread), ⟨rfl, h.nested⟩, h.closed⟩

end Tagged

end Source

end Codemod.Markup
