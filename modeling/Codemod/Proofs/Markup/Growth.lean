import Codemod.Proofs.Markup.Mention
import Codemod.Proofs.Markup.Spans

namespace Codemod.Markup

/-- Bytes that begin and end with the brackets of a tag. -/
structure Bracketed (t : Bytes) : Prop where
  first : t.head? = some 60
  last : t.getLast? = some 62

theorem IsStartTag.bracketed {tag : Bytes} {selfClosing : Bool} (h : IsStartTag tag selfClosing) : Bracketed tag := by
  refine ⟨h.head, ?_⟩
  obtain ⟨init, rfl⟩ := h.bracket
  exact List.getLast?_append_of_ne_nil _ (by decide)

theorem IsEndTag.bracketed {tag : Bytes} (h : IsEndTag tag) : Bracketed tag := by
  obtain ⟨d, s, selfClosing, rfl, -, hfin⟩ := h.eq_cons
  refine ⟨rfl, ?_⟩
  rw [List.getLast?_cons, List.getLast?_cons, getLast?_of_finish (by simp) hfin]
  rfl

theorem Word.infix_append {w a b : Bytes} (hw : Word w) (hcut : b.head? = some 60 ∨ a.getLast? = some 62)
    (h : w <:+: a ++ b) : w <:+: a ∨ w <:+: b := by
  refine infix_append_of_cut hw.nonempty (hcut.imp (fun hb x hx hm => ?_) (fun ha x hx hm => ?_)) h
  · obtain rfl : 60 = x := Option.some.inj (hb.symm.trans hx)
    exact (hw.plain 60 hm).2.2 rfl
  · obtain rfl : 62 = x := Option.some.inj (ha.symm.trans hx)
    exact absurd (hw.plain 62 hm).1 (by decide)

/-- What edits of a tree may do. -/
structure Growth where
  /-- A start tag may become another one of its name, with first children behind it. -/
  edits : Bytes → Bytes → Source → Prop
  /-- The names of new elements. -/
  fresh : Bytes → Prop
  /-- Start tags that may give way to new ones. -/
  gone : Bytes → Prop
  /-- The names of elements whose content may be enclosed behind a header, with its name. -/
  split : Bytes → Bytes → Prop

namespace Source

/-- A tree and what edits made of it. -/
inductive Evolves (k : Growth) : Source → Source → Prop
  | nil : Evolves k nil nil
  | gap (g : Gap) {a b : Source} (next : Evolves k a b) : Evolves k (gap g a) (gap g b)
  /-- The element stays, perhaps with text and comments in front of it. -/
  | keep (gaps : List Gap) (tag : Bytes) (selfClosing : Bool) (close : Option Bytes) {inner inner' next next' : Source}
      (inside : Evolves k inner inner') (behind : Evolves k next next') :
      Evolves k (element tag selfClosing inner close next)
        (gaps.foldr Source.gap (element tag selfClosing inner' close next'))
  | edit {tag tag' : Bytes} (selfClosing selfClosing' : Bool) {close close' : Option Bytes}
      {first inner inner' next next' : Source} (edits : k.edits tag tag' first)
      (name : startTagName tag' = startTagName tag) (fresh : first.Every fun t _ _ => k.fresh (startTagName t))
      (closing : close' = close ∨ inner = .nil ∧ close = none) (inside : Evolves k inner inner')
      (behind : Evolves k next next') :
      Evolves k (element tag selfClosing inner close next)
        (element tag' selfClosing' (first.append inner') close' next')
  | rename {tag tag' : Bytes} (selfClosing selfClosing' : Bool) (close close' : Option Bytes)
      {inner inner' next next' : Source} (gone : k.gone tag) (fresh : k.fresh (startTagName tag'))
      (inside : Evolves k inner inner') (behind : Evolves k next next') :
      Evolves k (element tag selfClosing inner close next) (element tag' selfClosing' inner' close' next')
  /-- What follows the first header is enclosed; it begins behind a tag. -/
  | enclose {tag header name panel : Bytes} (selfClosing : Bool) {close : Option Bytes}
      {inner inner' next next' : Source} (split : k.split (startTagName tag) header) (fresh : k.fresh (startTagName panel))
      (closed : close.isSome) (cut : ∃ front body, front.getLast? = some 62 ∧ render inner'.pieces = front ++ body ∧
        render (inner'.enclose header name panel).pieces = front ++ (openText panel ++ (body ++ closeText name)))
      (inside : Evolves k inner inner') (behind : Evolves k next next') :
      Evolves k (element tag selfClosing inner close next)
        (element tag selfClosing (inner'.enclose header name panel) close next')

section Enclose

variable {P : Bytes → Source → Option Bytes → Prop} {header name panel : Bytes} {s : Source}

theorem Every.enclose (h : s.Every P) (hpanel : ∀ inner close, P panel inner close) :
    (s.enclose header name panel).Every P := by
  induction s with
  | nil => trivial
  | gap g next ih => exact ih h
  | element tag selfClosing inner close next _ ih =>
    refine ⟨h.1, h.2.1, ?_⟩
    split
    · exact ⟨hpanel _ _, h.2.2, trivial⟩
    · exact ih h.2.2

theorem anyChild_enclose : (s.enclose header name panel).anyChild (startTagName · = header) =
    s.anyChild (startTagName · = header) := by
  induction s with
  | nil => rfl
  | gap g next ih => exact ih
  | element tag selfClosing inner close next _ ih =>
    rw [Source.enclose, anyChild, anyChild]
    split
    · next h => simp [h]
    · rw [ih]

end Enclose

namespace Evolves

variable {k : Growth} {P : Bytes → Source → Option Bytes → Prop} {s s' : Source}

theorem eq_nil (h : Evolves k .nil s') : s' = .nil := by
  cases h
  rfl

/-- What holds of every element, and what the edits make of it. -/
theorem every {Q : Bytes → Source → Option Bytes → Prop} (h : Evolves k s s')
    (hfresh : ∀ tag inner close, k.fresh (startTagName tag) → Q tag inner close)
    (hkeep : ∀ tag close {inner inner'}, Evolves k inner inner' → P tag inner close → Q tag inner' close)
    (hedit : ∀ {tag tag' first} close close' {inner inner'}, k.edits tag tag' first →
      startTagName tag' = startTagName tag → first.Every (fun t _ _ => k.fresh (startTagName t)) →
      Evolves k inner inner' → P tag inner close → Q tag' (first.append inner') close')
    (hsplit : ∀ {tag header name panel} close {inner inner'}, k.split (startTagName tag) header →
      k.fresh (startTagName panel) → Evolves k inner inner' → P tag inner close →
        Q tag (inner'.enclose header name panel) close)
    (hs : s.Every P) : s'.Every Q := by
  induction h with
  | nil => trivial
  | gap g _ ih => exact ih hs
  | keep gaps tag selfClosing close inside _ ih1 ih2 =>
    rw [every_foldr_gap]
    exact ⟨hkeep tag close inside hs.1, ih1 hs.2.1, ih2 hs.2.2⟩
  | edit selfClosing selfClosing' edits name fresh closing inside _ ih1 ih2 =>
    refine ⟨hedit _ _ edits name fresh inside hs.1, ?_, ih2 hs.2.2⟩
    exact (every_append _ _).mpr ⟨fresh.imp fun tag inner close => hfresh tag inner close, ih1 hs.2.1⟩
  | rename selfClosing selfClosing' close close' gone fresh inside _ ih1 ih2 =>
    exact ⟨hfresh _ _ _ fresh, ih1 hs.2.1, ih2 hs.2.2⟩
  | enclose selfClosing split fresh closed cut inside _ ih1 ih2 =>
    exact ⟨hsplit _ split fresh inside hs.1, (ih1 hs.2.1).enclose fun _ _ => hfresh _ _ _ fresh, ih2 hs.2.2⟩

/-- The same for a property of elements that are neither edited nor new. -/
theorem every_of_names {Q : Bytes → Source → Option Bytes → Prop} (h : Evolves k s s') (names : Bytes → Prop)
    (hother : ∀ tag inner close, ¬names (startTagName tag) → Q tag inner close)
    (hfresh : ∀ n, k.fresh n → ¬names n) (hedits : ∀ tag tag' first, k.edits tag tag' first → ¬names (startTagName tag))
    (hsplit : ∀ n header, k.split n header → ¬names n)
    (hkeep : ∀ tag close {inner inner'}, Evolves k inner inner' → P tag inner close → Q tag inner' close)
    (hs : s.Every P) : s'.Every Q := by
  refine h.every (fun tag _ _ hf => hother _ _ _ (hfresh _ hf)) hkeep ?_ ?_ hs
  · intro tag tag' first close close' inner inner' hedit hname _ _ _
    exact hother _ _ _ (hname ▸ hedits _ _ _ hedit)
  · intro tag header name panel close inner inner' htag _ _ _
    exact hother _ _ _ (hsplit _ _ htag)

theorem anyChild {select : Bytes → Bool} (h : Evolves k s s')
    (hedits : ∀ tag tag' first, k.edits tag tag' first → select tag = true → select tag' = true)
    (hgone : ∀ tag, k.gone tag → select tag = false) (hs : s.anyChild select = true) :
    s'.anyChild select = true := by
  induction h with
  | nil => exact hs
  | gap g _ ih => exact ih hs
  | keep gaps tag selfClosing close _ _ _ ih =>
    rw [anyChild_foldr_gap]
    exact Bool.or_eq_true_iff.mpr ((Bool.or_eq_true_iff.mp hs).imp_right ih)
  | edit _ _ edits _ _ _ _ _ _ ih =>
    exact Bool.or_eq_true_iff.mpr ((Bool.or_eq_true_iff.mp hs).imp (hedits _ _ _ edits) ih)
  | rename _ _ _ _ gone _ _ _ _ ih =>
    rcases Bool.or_eq_true_iff.mp hs with hs | hs
    · rw [hgone _ gone] at hs
      cases hs
    · exact Bool.or_eq_true_iff.mpr (Or.inr (ih hs))
  | enclose _ _ _ _ _ _ _ _ ih =>
    exact Bool.or_eq_true_iff.mpr ((Bool.or_eq_true_iff.mp hs).imp_right ih)

/-- What follows the first child of a name evolves; no other child gets this name. -/
theorem after? {name : Bytes} (h : Evolves k s s') (hfresh : ¬k.fresh name)
    (hgone : ∀ tag, k.gone tag → startTagName tag ≠ name) :
    (s.after? name = none ∧ s'.after? name = none) ∨
      ∃ body body', s.after? name = some body ∧ s'.after? name = some body' ∧ Evolves k body body' := by
  have hsame {tag tag' : Bytes} {next next' : Source} (htag : startTagName tag' = startTagName tag)
      (behind : Evolves k next next')
      (ih : (next.after? name = none ∧ next'.after? name = none) ∨
        ∃ body body', next.after? name = some body ∧ next'.after? name = some body' ∧ Evolves k body body') :
      ((if startTagName tag = name then some next else next.after? name) = none ∧
        (if startTagName tag' = name then some next' else next'.after? name) = none) ∨
      ∃ body body', (if startTagName tag = name then some next else next.after? name) = some body ∧
        (if startTagName tag' = name then some next' else next'.after? name) = some body' ∧ Evolves k body body' := by
    rw [htag]
    split
    · exact Or.inr ⟨_, _, rfl, rfl, behind⟩
    · exact ih
  induction h with
  | nil => exact Or.inl ⟨rfl, rfl⟩
  | gap g _ ih => exact ih
  | keep gaps tag selfClosing close _ behind _ ih =>
    rw [after?_foldr_gap]
    exact hsame rfl behind ih
  | edit _ _ _ htag _ _ _ behind _ ih => exact hsame htag behind ih
  | @rename tag tag' _ _ _ _ _ _ _ _ gone fresh _ _ _ ih =>
    have htag' : startTagName tag' ≠ name := fun he => hfresh (he ▸ fresh)
    rw [Source.after?, Source.after?, if_neg (hgone _ gone), if_neg htag']
    exact ih
  | enclose _ _ _ _ _ _ behind _ ih => exact hsame rfl behind ih

end Evolves

theorem render_element (tag : Bytes) (selfClosing : Bool) (inner : Source) (close : Option Bytes) (next : Source) :
    render (element tag selfClosing inner close next).pieces =
      tag ++ (render inner.pieces ++ (close.getD [] ++ render next.pieces)) := by
  cases close <;> simp [pieces, Piece.raw]

/-- Edits keep a text between brackets, where they keep it in the tags that they change. -/
theorem Evolves.mention {k : Growth} {w : Bytes} (hw : Word w)
    (hedits : ∀ tag tag' first, k.edits tag tag' first → w <:+: tag → w <:+: tag' ++ render first.pieces)
    {s s' : Source} (h : Evolves k s s')
    (hs : s.Every fun tag _ close => Bracketed tag ∧ (∀ c ∈ close, Bracketed c) ∧ ¬k.gone tag) {pre post : Bytes}
    (hin : w <:+: pre ++ (render s.pieces ++ post)) : w <:+: pre ++ (render s'.pieces ++ post) := by
  have hopen {tag : Bytes} (ht : Bracketed tag) (y : Bytes) : (tag ++ y).head? = some 60 := by
    rw [List.head?_append, ht.first]
    rfl
  have hlast {tag : Bytes} (ht : Bracketed tag) (a : Bytes) : (a ++ tag).getLast? = some 62 := by
    rw [List.getLast?_append, ht.last]
    rfl
  induction h generalizing pre post with
  | nil => exact hin
  | gap g _ ih =>
    rw [pieces, render_cons, List.append_assoc, ← List.append_assoc] at hin ⊢
    exact ih hs hin
  | @keep gaps tag selfClosing close inner inner' next next' _ _ ih1 ih2 =>
    obtain ⟨⟨htag, -, -⟩, hinner, hnext⟩ := hs
    have h1 : w <:+: (pre ++ tag) ++ (render inner'.pieces ++ (close.getD [] ++ (render next.pieces ++ post))) :=
      ih1 hinner (by simpa [render_element] using hin)
    have h2 : w <:+: (pre ++ (tag ++ (render inner'.pieces ++ close.getD []))) ++ (render next'.pieces ++ post) :=
      ih2 hnext (by simpa using h1)
    rw [Patch.render_foldr_gap, render_element]
    have h3 : w <:+: pre ++ (tag ++ (render inner'.pieces ++ (close.getD [] ++ (render next'.pieces ++ post)))) := by
      simpa using h2
    rcases hw.infix_append (Or.inl (hopen htag _)) h3 with h | h
    · exact infix_within h [] _ (by simp; rfl)
    · exact infix_within h (pre ++ gapText gaps) [] (by simp)
  | @edit tag tag' _ _ close close' first inner inner' next next' edits _ _ closing inside _ ih1 ih2 =>
    obtain ⟨⟨htag, -, -⟩, hinner, hnext⟩ := hs
    have h1 : w <:+: (pre ++ tag) ++ (render inner'.pieces ++ (close.getD [] ++ (render next.pieces ++ post))) :=
      ih1 hinner (by simpa [render_element] using hin)
    have h2 : w <:+: (pre ++ (tag ++ (render inner'.pieces ++ close.getD []))) ++ (render next'.pieces ++ post) :=
      ih2 hnext (by simpa using h1)
    have h3 : w <:+: pre ++ (tag ++ (render inner'.pieces ++ (close.getD [] ++ (render next'.pieces ++ post)))) := by
      simpa using h2
    rw [render_element, pieces_append, render_append]
    rcases hw.infix_append (Or.inl (hopen htag _)) h3 with h | h
    · exact infix_within h [] _ (by simp; rfl)
    · rcases hw.infix_append (Or.inr htag.last) h with h | h
      · exact infix_within (hedits _ _ _ edits h) pre _ (by simp; rfl)
      · rcases closing with rfl | ⟨rfl, rfl⟩
        · exact infix_within h (pre ++ (tag' ++ render first.pieces)) [] (by simp)
        · rw [inside.eq_nil] at h
          exact infix_within h (pre ++ (tag' ++ (render first.pieces ++ (render inner'.pieces ++ close'.getD [])))) []
            (by simp [pieces])
  | rename _ _ _ _ gone => exact absurd gone hs.1.2.2
  | @enclose tag header name panel _ close inner inner' next next' _ _ closed cut _ _ ih1 ih2 =>
    obtain ⟨⟨htag, hclose, -⟩, hinner, hnext⟩ := hs
    obtain ⟨c, rfl⟩ := Option.isSome_iff_exists.mp closed
    obtain ⟨front, body, hfront, hbody, hrender⟩ := cut
    have h1 : w <:+: (pre ++ tag) ++ (render inner'.pieces ++ (c ++ (render next.pieces ++ post))) :=
      ih1 hinner (by simpa [render_element] using hin)
    have h2 : w <:+: (pre ++ (tag ++ (render inner'.pieces ++ c))) ++ (render next'.pieces ++ post) :=
      ih2 hnext (by simpa using h1)
    have h3 : w <:+: (pre ++ (tag ++ front)) ++ (body ++ (c ++ (render next'.pieces ++ post))) := by
      simpa [hbody] using h2
    have hcut : (pre ++ (tag ++ front)).getLast? = some 62 := by
      rw [← List.append_assoc, List.getLast?_append, hfront]
      rfl
    rw [render_element, hrender]
    rcases hw.infix_append (Or.inr hcut) h3 with h | h
    · exact infix_within h [] _ (by simp; rfl)
    · rcases hw.infix_append (Or.inl (hopen (hclose c rfl) _)) h with h | h
      · exact infix_within h (pre ++ (tag ++ (front ++ openText panel))) _ (by simp; rfl)
      · exact infix_within h (pre ++ (tag ++ (front ++ (openText panel ++ (body ++ closeText name))))) [] (by simp)

/-- A tree without brackets stays as it is. -/
theorem Evolves.eq_of_not_mem {k : Growth} {s s' : Source} (h : Evolves k s s')
    (hs : s.Every fun tag _ _ => Bracketed tag) (hopens : 60 ∉ render s.pieces) : s' = s := by
  induction s generalizing s' with
  | nil => exact h.eq_nil
  | gap g next ih =>
    cases h with
    | gap _ h => rw [ih h hs fun hm => hopens (by rw [pieces, render_cons]; exact List.mem_append_right _ hm)]
  | element tag selfClosing inner close next =>
    refine absurd ?_ hopens
    rw [render_element]
    exact List.mem_append_left _ (List.mem_of_mem_head? hs.1.first)

end Source

/-- A growth allows what is done to an element. -/
def Patch.Allowed (k : Growth) (x : Spot) : Patch → Prop
  | keep | front _ => True
  | retag edits => k.edits x.tag edits.target .nil
  | fill edits first =>
    k.edits x.tag (filledTag edits x.selfClosing) first ∧ first.Every fun t _ _ => k.fresh (startTagName t)
  | rename name => k.gone x.tag ∧ k.fresh name

/-- An element has a property after an edit; `inner` is its content then. -/
def Patch.Meets (Q : Bytes → Source → Option Bytes → Prop) (x : Spot) (inner : Source) : Patch → Prop
  | keep | front _ => Q x.tag inner x.close
  | retag edits => Q edits.target inner x.close
  | fill edits first =>
    first.Every Q ∧ ∀ close, Q (filledTag edits x.selfClosing) (first.append inner) close
  | rename name => Q (openTag name) inner (some (closeTag name))

namespace Source

variable {k : Growth} {content : Bytes} {plan : Place → Patch} {above : List Element} {p : Nat} {s : Source}

theorem evolves_patch (hin : s.Each (Spot.In · content) above p)
    (hsound : s.Each (fun x => (plan x.place).Sound x) above p)
    (h : s.Each (fun x => (plan x.place).Allowed k x) above p) : Evolves k s (s.patch plan above p) := by
  induction s generalizing above p with
  | nil => exact .nil
  | gap g next ih => exact .gap g (ih hin hsound h)
  | element tag selfClosing inner close next ih1 ih2 =>
    obtain ⟨hin, hin1, hin2⟩ := hin
    obtain ⟨hsound, hsound1, hsound2⟩ := hsound
    obtain ⟨h, h1, h2⟩ := h
    have inside := ih1 hin1 hsound1 h1
    have behind := ih2 hin2 hsound2 h2
    rw [patch]
    dsimp only [Spot.place, Spot.element] at hsound h ⊢
    cases hplan : plan ⟨node p tag selfClosing inner close, above⟩ with
    | keep => exact .keep [] tag selfClosing close inside behind
    | front gaps => exact .keep gaps tag selfClosing close inside behind
    | retag edits =>
      rw [hplan] at hsound h
      exact .edit selfClosing selfClosing h hsound.2 trivial (Or.inl rfl) inside behind
    | fill edits first =>
      rw [hplan] at hsound h
      cases hself : selfClosing with
      | false =>
        subst hself
        exact .edit false false h.1 hsound.2.2.1 h.2 (Or.inl rfl) inside behind
      | true =>
        subst hself
        obtain ⟨hnil, hclose⟩ := hin.leaf (by simp [Spot.leaf, Source.leaf])
        obtain rfl : inner = .nil := hnil
        have hedit : Evolves k (element tag true .nil close next) (element (Patch.filledTag edits true) false
            (first.append .nil) (some (closeTag (startTagName tag))) (next.patch plan above _)) :=
          .edit true false h.1 hsound.2.2.1 h.2 (Or.inr ⟨rfl, hclose⟩) .nil behind
        rw [append_nil] at hedit
        exact hedit
    | rename name =>
      rw [hplan] at hsound h
      have hfresh : k.fresh (startTagName (openTag name)) := by
        rw [hsound.2.2.startTagName]
        exact h.2
      exact .rename selfClosing false close _ h.1 hfresh inside behind

/-- The content of every element evolves. -/
theorem each_evolves_patch (hin : s.Each (Spot.In · content) above p)
    (hsound : s.Each (fun x => (plan x.place).Sound x) above p)
    (h : s.Each (fun x => (plan x.place).Allowed k x) above p) :
    s.Each (fun x => Evolves k x.inner (x.inner.patch plan (x.element :: x.above) (x.pos + x.tag.length))) above p := by
  have hinside := (hin.inside.and hsound.inside).and h.inside
  exact hinside.imp fun x hx => evolves_patch hx.1.1 hx.1.2 hx.2

theorem every_patch {Q : Bytes → Source → Option Bytes → Prop} (hin : s.Each (Spot.In · content) above p)
    (h : s.Each (fun x => (plan x.place).Meets Q x (x.inner.patch plan (x.element :: x.above) (x.pos + x.tag.length)))
      above p) : (s.patch plan above p).Every Q := by
  induction s generalizing above p with
  | nil => trivial
  | gap g next ih => exact ih hin h
  | element tag selfClosing inner close next ih1 ih2 =>
    obtain ⟨hin, hin1, hin2⟩ := hin
    obtain ⟨h, h1, h2⟩ := h
    have inside := ih1 hin1 h1
    have behind := ih2 hin2 h2
    rw [patch]
    dsimp only [Spot.place, Spot.element] at h ⊢
    cases hplan : plan ⟨node p tag selfClosing inner close, above⟩ with
    | keep =>
      rw [hplan] at h
      exact ⟨h, inside, behind⟩
    | front gaps =>
      rw [hplan] at h
      exact (every_foldr_gap gaps).mpr ⟨h, inside, behind⟩
    | retag edits =>
      rw [hplan] at h
      exact ⟨h, inside, behind⟩
    | fill edits first =>
      rw [hplan] at h
      cases hself : selfClosing with
      | false =>
        subst hself
        exact ⟨h.2 _, (every_append _ _).mpr ⟨h.1, inside⟩, behind⟩
      | true =>
        subst hself
        obtain ⟨hnil, -⟩ := hin.leaf (by simp [Spot.leaf, Source.leaf])
        obtain rfl : inner = .nil := hnil
        have htag := h.2 (some (closeTag (startTagName tag)))
        rw [patch, append_nil] at htag
        exact ⟨htag, h.1, behind⟩
    | rename name =>
      rw [hplan] at h
      exact ⟨h, inside, behind⟩

/-- An element of a name ends with a bracket. -/
def EndsIn (header tag : Bytes) (inner : Source) (close : Option Bytes) : Prop :=
  startTagName tag = header → Bracketed tag ∧ (∀ c ∈ close, Bracketed c) ∧ (close = none → inner = .nil)

theorem enclose_cut {header name panel : Bytes} (hany : s.anyChild (startTagName · = header) = true)
    (hends : s.Every (EndsIn header)) : ∃ front body, front.getLast? = some 62 ∧ render s.pieces = front ++ body ∧
      render (s.enclose header name panel).pieces = front ++ (openText panel ++ (body ++ closeText name)) := by
  induction s with
  | nil => cases hany
  | gap g next ih =>
    obtain ⟨front, body, hlast, hbody, hrender⟩ := ih hany hends
    refine ⟨g.raw ++ front, body, by rw [List.getLast?_append, hlast]; rfl, ?_, ?_⟩
    · simp [pieces, render_piece, hbody]
    · simp [Source.enclose, pieces, render_piece, hrender]
  | element tag selfClosing inner close next _ ih =>
    rw [anyChild, Bool.or_eq_true, decide_eq_true_eq] at hany
    rw [Source.enclose, render_element, render_element]
    by_cases hname : startTagName tag = header
    · obtain ⟨htag, hclose, hnil⟩ := hends.1 hname
      refine ⟨tag ++ (render inner.pieces ++ close.getD []), render next.pieces, ?_, by simp, ?_⟩
      · cases close with
        | none =>
          rw [hnil rfl]
          simpa [pieces] using htag.last
        | some c => rw [← List.append_assoc, List.getLast?_append, Option.getD_some, (hclose c rfl).last]; rfl
      · rw [if_pos hname]
        simp [pieces, Piece.raw, Gap.piece, openText, closeText]
    · obtain ⟨front, body, hlast, hbody, hrender⟩ := ih (hany.resolve_left hname) hends.2.2
      refine ⟨tag ++ (render inner.pieces ++ (close.getD [] ++ front)), body, ?_, by simp [hbody], ?_⟩
      · rw [← List.append_assoc, ← List.append_assoc, List.getLast?_append, hlast]
        rfl
      · rw [if_neg hname, hrender]
        simp

theorem evolves_enclosed {e : Enclosure} (hfresh : ¬k.fresh e.header) (hsplit : ∀ header, ¬k.split e.header header)
    (hedits : ∀ tag tag' first, k.edits tag tag' first → startTagName tag ≠ e.header)
    (hgone : ∀ tag, k.gone tag → startTagName tag ≠ e.header) (hends : s.Every (EndsIn e.header))
    (h : s.Each (fun x => ∀ panel ∈ e.tag? x.place, k.split x.name e.header ∧ k.fresh (startTagName panel) ∧ x.close.isSome ∧
      x.inner.anyChild (startTagName · = e.header) = true) above p) : Evolves k s (s.enclosed e above p) := by
  induction s generalizing above p with
  | nil => exact .nil
  | gap g next ih => exact .gap g (ih hends h)
  | element tag selfClosing inner close next ih1 ih2 =>
    obtain ⟨-, hends1, hends2⟩ := hends
    obtain ⟨h, h1, h2⟩ := h
    have inside := ih1 hends1 h1
    have behind := ih2 hends2 h2
    rw [enclosed]
    dsimp only [Spot.place, Spot.element] at h ⊢
    cases htag : e.tag? ⟨node p tag selfClosing inner close, above⟩ with
    | none => exact .keep [] tag selfClosing close inside behind
    | some panel =>
      obtain ⟨hsplit', hpanel, hclose, hany⟩ := h panel htag
      refine .enclose selfClosing hsplit' hpanel hclose (enclose_cut ?_ ?_) inside behind
      · refine inside.anyChild (fun tag tag' first hedit htag => ?_) (fun tag hg => by simpa using hgone tag hg) hany
        exact absurd (by simpa using htag) (hedits _ _ _ hedit)
      · refine inside.every_of_names (· = e.header) ?_ ?_ ?_ ?_ ?_ hends1
        · exact fun tag inner close hname he => absurd he hname
        · rintro n hn rfl
          exact hfresh hn
        · exact hedits
        · rintro n header hn rfl
          exact hsplit header hn
        · intro tag close inner inner' hev hin hname
          obtain ⟨htag, hclose, hnil⟩ := hin hname
          refine ⟨htag, hclose, fun hc => ?_⟩
          rw [hnil hc] at hev
          exact hev.eq_nil

theorem each_evolves_enclosed {e : Enclosure} (hfresh : ¬k.fresh e.header) (hsplit : ∀ header, ¬k.split e.header header)
    (hedits : ∀ tag tag' first, k.edits tag tag' first → startTagName tag ≠ e.header)
    (hgone : ∀ tag, k.gone tag → startTagName tag ≠ e.header) (hends : s.Every (EndsIn e.header))
    (h : s.Each (fun x => ∀ panel ∈ e.tag? x.place, k.split x.name e.header ∧ k.fresh (startTagName panel) ∧
      x.close.isSome ∧ x.inner.anyChild (startTagName · = e.header) = true) above p) :
    s.Each (fun x => Evolves k x.inner (x.inner.enclosed e (x.element :: x.above) (x.pos + x.tag.length))) above p := by
  have hinside := (each_of_every hends.inside above p).and h.inside
  exact hinside.imp fun x hx => evolves_enclosed hfresh hsplit hedits hgone hx.1 hx.2

theorem every_enclosed {e : Enclosure} {Q : Bytes → Source → Option Bytes → Prop}
    (h : s.Each (fun x => Q x.tag ((x.inner.enclosed e (x.element :: x.above) (x.pos + x.tag.length)).encloseWith e
      (e.tag? x.place)) x.close ∧ ∀ panel ∈ e.tag? x.place, ∀ inner close, Q panel inner close) above p) :
    (s.enclosed e above p).Every Q := by
  induction s generalizing above p with
  | nil => trivial
  | gap g next ih => exact ih h
  | element tag selfClosing inner close next ih1 ih2 =>
    obtain ⟨⟨hself, hpanel⟩, h1, h2⟩ := h
    refine ⟨hself, ?_, ih2 h2⟩
    dsimp only [Spot.place, Spot.element] at hpanel
    cases htag : e.tag? ⟨node p tag selfClosing inner close, above⟩ with
    | none => exact ih1 h1
    | some panel => exact (ih1 h1).enclose fun inner close => hpanel panel htag inner close

theorem after?_enclose {header name panel : Bytes} {body : Source}
    (h : (s.enclose header name panel).after? header = some body) :
    ∃ rest, body = gap (.text [10]) (element panel false rest (some (closeTag name)) (gap (.text [10]) nil)) := by
  induction s with
  | nil => cases h
  | gap g next ih => exact ih h
  | element tag selfClosing inner close next _ ih =>
    rw [Source.enclose, after?] at h
    split at h
    · cases h
      exact ⟨next, rfl⟩
    · exact ih h

end Source

end Codemod.Markup
