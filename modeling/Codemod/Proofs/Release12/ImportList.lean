import Codemod.Proofs.Edit.Cuts
import Codemod.Proofs.Release12.ImportText
import Codemod.Proofs.Text.Scalars

namespace Codemod.Release12

open Edit Markup Text

/-- The byte that parts the entries of a list. -/
def comma : UInt8 := ','

/-- A list is one piece, or a piece and a list behind a comma. -/
theorem comma_induction {P : Bytes → Prop} (one : ∀ s, comma ∉ s → P s)
    (more : ∀ u v, comma ∉ u → P v → P (u ++ comma :: v)) (s : Bytes) : P s := by
  induction hn : s.length using Nat.strong_induction_on generalizing s with
  | _ n ih =>
    by_cases hmem : comma ∈ s
    · obtain ⟨u, v, rfl, hu⟩ := List.eq_append_cons_of_mem hmem
      rw [List.length_append, List.length_cons] at hn
      exact more u v hu (ih v.length (by omega) v rfl)
    · exact one s hmem

/-- The entries of a list: what is between its commas, without white space and without empty ones. -/
def names (s : Bytes) : List Bytes := ((Bytes.splitOn comma s).map trimBytes).filter (· ≠ [])

section Names

variable {w x y e mid : Bytes}

theorem names_comma (x y : Bytes) : names (x ++ comma :: y) = names x ++ names y := by
  rw [names, Bytes.splitOn_append, List.map_append, List.filter_append]
  rfl

theorem names_of_not_mem (h : comma ∉ x) : names x = [trimBytes x].filter (· ≠ []) := by
  rw [names, Bytes.splitOn_of_not_mem h]
  rfl

theorem not_mem_of_blank (h : Blank w) : comma ∉ w := by
  intro hmem
  have hnot := h.not_visible comma hmem
  revert hnot
  decide

/-- White space at the ends of a list does not matter. -/
theorem names_blank_append (hw : Blank w) (x : Bytes) : names (w ++ x) = names x := by
  have hfront {x : Bytes} (hx : comma ∉ x) : names (w ++ x) = names x := by
    have hboth : comma ∉ w ++ x := by simp [not_mem_of_blank hw, hx]
    rw [names_of_not_mem hboth, names_of_not_mem hx, trimBytes_blank_append hw]
  induction x using comma_induction with
  | one x hx => exact hfront hx
  | more u v hu _ => rw [← List.append_assoc, names_comma, hfront hu, names_comma]

theorem names_append_blank (hw : Blank w) (x : Bytes) : names (x ++ w) = names x := by
  induction x using comma_induction with
  | one x hx =>
    have hboth : comma ∉ x ++ w := by simp [not_mem_of_blank hw, hx]
    rw [names_of_not_mem hboth, names_of_not_mem hx, trimBytes_append_blank hw]
  | more u v _ ih => rw [List.append_assoc, List.cons_append, names_comma, ih, names_comma]

theorem names_blank (hw : Blank w) : names w = [] := by
  have hnil : trimBytes [] = [] := by
    rw [trimBytes_eq, scalars]
    rfl
  rw [names_of_not_mem (not_mem_of_blank hw), ← List.append_nil w, trimBytes_blank_append hw, hnil]
  rfl

/-- A text that can stand as an entry. -/
structure IsEntry (e : Bytes) : Prop where
  ne_nil : e ≠ []
  comma : comma ∉ e
  trim : trimBytes e = e

theorem IsEntry.names (h : IsEntry e) : names e = [e] := by
  rw [names_of_not_mem h.comma, h.trim]
  simp [h.ne_nil]

/-- Commas with nothing but white space between them. -/
def Commas (mid : Bytes) : Prop := ∃ ws : List Bytes, (∀ w ∈ ws, Blank w) ∧ mid = comma :: ws.flatMap (· ++ [comma])

theorem Commas.names_append (h : Commas mid) (x y : Bytes) : names (x ++ mid ++ y) = names x ++ names y := by
  obtain ⟨ws, hws, rfl⟩ := h
  have hrest : names (ws.flatMap (· ++ [comma]) ++ y) = names y := by
    induction ws with
    | nil => rfl
    | cons w ws ih =>
      obtain ⟨hw, hws⟩ := List.forall_mem_cons.mp hws
      rw [List.flatMap_cons, List.append_assoc, List.append_assoc, List.singleton_append, names_comma, names_blank hw,
        ih hws, List.nil_append]
  rw [List.append_assoc, List.cons_append, names_comma, hrest]

theorem Commas.snoc (h : Commas mid) (hw : Blank w) : Commas (mid ++ w ++ [comma]) := by
  obtain ⟨ws, hws, rfl⟩ := h
  refine ⟨ws ++ [w], fun v hv => ?_, ?_⟩
  · obtain hv | hv := List.mem_append.mp hv
    · exact hws v hv
    · rw [List.mem_singleton.mp hv]
      exact hw
  · simp

theorem Commas.single : Commas [comma] := ⟨[], by simp, rfl⟩

end Names

section Spread

variable {content : Bytes} {stop p pos : Nat} {prev : Option Specifier} {s : Specifier} {g : Bytes}

/-- The text of an entry begins with a whole character, so that it is found in its place. -/
def Specifier.Whole (s : Specifier) : Prop := (firstChar? s.text).isSome = true

/-- What lies between two entries, or between an entry and an end of its list: commas and no visible byte else. Where
a neighbour is found in its place, there is white space up to the next comma. -/
structure Spacing (left right ends : Prop) (g : Bytes) : Prop where
  quiet : ∀ b ∈ g, isVisible b = true → b = comma
  split : ∃ trail mid lead, g = trail ++ mid ++ lead ∧ (left → Blank trail) ∧ (right → Blank lead) ∧
    (Commas mid ∨ ends ∧ mid = [])

section Spacing

variable {left right ends : Prop} {x y : Bytes}

/-- A gap parts the names on its sides. -/
theorem Spacing.names_between (h : Spacing left right ends g) (hleft : left) (hright : right) (hends : ¬ends) :
    names (x ++ (g ++ y)) = names x ++ names y := by
  obtain ⟨trail, mid, lead, rfl, htrail, hlead, hmid | ⟨hend, -⟩⟩ := h.split
  · have hparts : x ++ (trail ++ mid ++ lead ++ y) = x ++ trail ++ mid ++ (lead ++ y) := by
      simp only [List.append_assoc]
    rw [hparts, hmid.names_append, names_append_blank (htrail hleft), names_blank_append (hlead hright)]
  · exact absurd hend hends

theorem Spacing.names_start (h : Spacing left right ends g) (hleft : left) (hright : right) : names (g ++ y) = names y := by
  obtain ⟨trail, mid, lead, rfl, htrail, hlead, hmid | ⟨-, rfl⟩⟩ := h.split
  · rw [List.append_assoc, hmid.names_append, names_blank (htrail hleft), List.nil_append,
      names_blank_append (hlead hright)]
  · rw [List.append_nil, names_blank_append ((htrail hleft).append (hlead hright))]

/-- A gap holds no names. -/
theorem Spacing.names_end (h : Spacing left right ends g) (hleft : left) (hright : right) : names (x ++ g) = names x := by
  obtain ⟨trail, mid, lead, rfl, htrail, hlead, hmid | ⟨-, rfl⟩⟩ := h.split
  · rw [← List.append_assoc, ← List.append_assoc, hmid.names_append, names_append_blank (htrail hleft),
      names_blank (hlead hright), List.append_nil]
  · rw [List.append_nil, names_append_blank ((htrail hleft).append (hlead hright))]

end Spacing

/-- The entries of a list that goes up to `stop`, from an offset on that lies behind an entry or at the start. -/
inductive Entries (content : Bytes) (stop : Nat) : Option Specifier → Nat → List Specifier → Prop
  | nil {prev : Option Specifier} {p : Nat} (le : p ≤ stop)
      (gap : Spacing (∀ s ∈ prev, s.Whole) True True (content.slice p stop)) : Entries content stop prev p []
  | cons {prev : Option Specifier} {p : Nat} {s : Specifier} {rest : List Specifier} (le : p ≤ s.span.start)
      (lt : s.span.start < s.span.stop) (entry : IsEntry s.text) (found : s.span.text content = s.text)
      (gap : Spacing (∀ t ∈ prev, t.Whole) s.Whole (prev = none) (content.slice p s.span.start))
      (more : Entries content stop (some s) s.span.stop rest) : Entries content stop prev p (s :: rest)

/-- An entry as it is recorded in its piece. -/
theorem exists_of_specifier? {piece : Bytes} (hpiece : comma ∉ piece) (h : specifier? pos piece = some s) :
    ∃ before behind, piece = before ++ s.text ++ behind ∧
      s.span = ⟨pos + before.length, pos + before.length + s.text.length⟩ ∧ IsEntry s.text ∧
      (∀ b ∈ before ++ behind, isVisible b = false) ∧ (s.Whole → Blank before ∧ Blank behind) := by
  unfold specifier? at h
  dsimp only at h
  split at h
  · cases h
  · next hempty =>
    cases h
    obtain ⟨lead, trail, hsplit, hlead, htrail, -⟩ := trimBytes_split piece
    have hentry : IsEntry (trimBytes piece) := by
      refine ⟨by simpa using hempty, fun hmem => hpiece ?_, trimBytes_trimBytes piece⟩
      rw [hsplit]
      exact List.mem_append_left _ (List.mem_append_right _ hmem)
    obtain ⟨i, hi⟩ := Option.isSome_iff_exists.mp ((contains_iff piece _).mpr ( trimBytes_infix piece))
    obtain ⟨behind, hbehind⟩ := Bytes.prefix_of_indexOf? hi
    have hle : i ≤ piece.length := by
      by_contra hlt
      rw [List.drop_eq_nil_of_le (by omega)] at hbehind
      exact hentry.ne_nil (List.append_eq_nil_iff.mp hbehind).1
    have hthere : piece = piece.take i ++ trimBytes piece ++ behind := by
      rw [List.append_assoc, hbehind, List.take_append_drop]
    refine ⟨piece.take i, behind, hthere, ?_, hentry, ?_, fun hwhole => ?_⟩
    · rw [hi, Option.getD_some, List.length_take_of_le hle]
    · -- as many visible bytes lie in the piece as in the text, wherever it is found
      have hcount := congrArg (List.countP isVisible) (hsplit.symm.trans hthere)
      have hnone {w : Bytes} (hw : Blank w) : List.countP isVisible w = 0 :=
        List.countP_eq_zero.mpr fun b hb => by rw [hw.not_visible b hb]; exact Bool.false_ne_true
      simp only [List.countP_append, hnone hlead, hnone htrail] at hcount
      have hzero : List.countP isVisible (piece.take i ++ behind) = 0 := by
        rw [List.countP_append]
        omega
      intro b hb
      simpa using List.countP_eq_zero.mp hzero b hb
    · obtain ⟨⟨c, extra⟩, hfirst⟩ := Option.isSome_iff_exists.mp hwhole
      have hplace := indexOf?_blank_append hlead hfirst (not_blank_of_firstChar? hfirst) trail
      rw [← List.append_assoc, ← hsplit, hi] at hplace
      obtain rfl := Option.some.inj hplace
      have hcut := hthere.symm.trans hsplit
      rw [List.append_assoc, List.append_assoc] at hcut
      obtain ⟨hfront, hback⟩ := List.append_inj hcut (List.length_take_of_le hle)
      rw [hfront, List.append_cancel_left hback]
      exact ⟨hlead, htrail⟩

/-- What lies behind an entry, or behind the start of a list, up to where the search for entries has come. -/
structure Pending (prev : Option Specifier) (pend : Bytes) : Prop where
  quiet : ∀ b ∈ pend, isVisible b = true → b = comma
  split : pend = [] ∧ prev = none ∨ ∃ trail mid, pend = trail ++ mid ∧ ((∀ t ∈ prev, t.Whole) → Blank trail) ∧ Commas mid

theorem Pending.gap {pend lead : Bytes} {right ends : Prop} (h : Pending prev pend) (hends : prev = none → ends)
    (hquiet : ∀ b ∈ lead, isVisible b = false) (hlead : right → Blank lead) :
    Spacing (∀ t ∈ prev, t.Whole) right ends (pend ++ lead) where
  quiet b hb hvisible := by
    obtain hb | hb := List.mem_append.mp hb
    · exact h.quiet b hb hvisible
    · rw [hquiet b hb] at hvisible
      cases hvisible
  split := by
    obtain ⟨rfl, hprev⟩ | ⟨trail, mid, rfl, htrail, hmid⟩ := h.split
    · exact ⟨[], [], lead, rfl, fun _ => Blank.nil, hlead, .inr ⟨hends hprev, rfl⟩⟩
    · exact ⟨trail, mid, lead, rfl, htrail, hlead, .inl hmid⟩

/-- A piece without an entry and its comma. -/
theorem Pending.snoc {pend w : Bytes} (h : Pending prev pend) (hw : Blank w) : Pending prev (pend ++ w ++ [comma]) where
  quiet b hb hvisible := by
    obtain hb | hb := List.mem_append.mp hb
    · obtain hb | hb := List.mem_append.mp hb
      · exact h.quiet b hb hvisible
      · rw [hw.not_visible b hb] at hvisible
        cases hvisible
    · exact List.mem_singleton.mp hb
  split := by
    obtain ⟨rfl, -⟩ | ⟨trail, mid, rfl, htrail, hmid⟩ := h.split
    · exact .inr ⟨w, [comma], rfl, fun _ => hw, Commas.single⟩
    · exact .inr ⟨trail, mid ++ w ++ [comma], by simp only [List.append_assoc], htrail, hmid.snoc hw⟩

theorem blank_of_specifier?_eq_none {piece : Bytes} (h : specifier? pos piece = none) : Blank piece := by
  unfold specifier? at h
  dsimp only at h
  split at h
  · next hempty => exact blank_of_trimBytes_eq_nil (List.isEmpty_iff.mp hempty)
  · cases h

/-- What lies behind an entry up to the next comma. -/
theorem Pending.behind {behind : Bytes} (hquiet : ∀ b ∈ behind, isVisible b = false) (hblank : s.Whole → Blank behind) :
    Pending (some s) (behind ++ [comma]) where
  quiet b hb hvisible := by
    obtain hb | hb := List.mem_append.mp hb
    · rw [hquiet b hb] at hvisible
      cases hvisible
    · exact List.mem_singleton.mp hb
  split := .inr ⟨behind, [comma], rfl, fun hwhole => hblank (hwhole s rfl), Commas.single⟩

/-- An entry in the next piece goes in front of those of the pieces behind it. -/
theorem entries_of_piece {u v pend : Bytes} {rest : List Specifier} (hpend : Pending prev pend)
    (hthere : pend ++ (u ++ v) <+: content.drop p) (hu : comma ∉ u) (hs : specifier? (p + pend.length) u = some s)
    (hrest : ∀ behind, (∀ b ∈ behind, isVisible b = false) → (s.Whole → Blank behind) →
      behind ++ v <+: content.drop s.span.stop → p + (pend ++ u).length = s.span.stop + behind.length →
      Entries content stop (some s) s.span.stop rest) :
    Entries content stop prev p (s :: rest) := by
  obtain ⟨before, behind, rfl, hspan, hs, hquiet, hblank⟩ := exists_of_specifier? hu hs
  have hquietBefore : ∀ b ∈ before, isVisible b = false := fun b hb => hquiet b (List.mem_append_left _ hb)
  have hquietBehind : ∀ b ∈ behind, isVisible b = false := fun b hb => hquiet b (List.mem_append_right _ hb)
  have hpos := List.length_pos_iff.mpr hs.ne_nil
  have hfront : pend ++ before ++ (s.text ++ (behind ++ v)) <+: content.drop p := by
    simpa only [List.append_assoc] using hthere
  have hstart : s.span.start = p + (pend ++ before).length := by
    rw [hspan, List.length_append, Nat.add_assoc]
  have hstop : s.span.stop = s.span.start + s.text.length := by rw [hspan]
  have htext := prefix_drop_add hfront
  rw [← hstart] at htext
  refine .cons (by omega) (by omega) hs ?_ ?_ (hrest behind hquietBehind (fun hw => (hblank hw).2) ?_ ?_)
  · rw [Span.text, hstop]
    exact Bytes.slice_of_prefix_drop ((List.prefix_append _ _).trans htext)
  · rw [hstart, Bytes.slice_of_prefix_drop ((List.prefix_append _ _).trans hfront)]
    exact hpend.gap id hquietBefore fun hw => (hblank hw).1
  · rw [hstop]
    exact prefix_drop_add htext
  · rw [hstop, hstart]
    simp only [List.length_append]
    omega

/-- The entries that are recorded of a list stand in it. -/
theorem entries_of_list (content text : Bytes) {pend : Bytes} (hpend : Pending prev pend)
    (hthere : pend ++ text <+: content.drop p) :
    Entries content (p + (pend ++ text).length) prev p
      (specifiersFrom (p + pend.length) (Bytes.splitOn comma text)) := by
  -- piece by piece; `pend` is what the search has passed since the last entry
  induction text using comma_induction generalizing prev p pend with
  | one u hu =>
    rw [Bytes.splitOn_of_not_mem hu, specifiersFrom, specifiersFrom, List.append_nil]
    cases hs : specifier? (p + pend.length) u with
    | none =>
      have hblank := blank_of_specifier?_eq_none hs
      refine .nil (Nat.le_add_right _ _) ?_
      rw [Bytes.slice_of_prefix_drop hthere]
      exact hpend.gap (fun _ => trivial) hblank.not_visible fun _ => hblank
    | some s =>
      have hthere' : pend ++ (u ++ []) <+: content.drop p := by rwa [List.append_nil]
      refine entries_of_piece hpend hthere' hu hs fun behind hquiet hblank hbehind hlength => ?_
      rw [List.append_nil] at hbehind
      rw [hlength]
      refine .nil (Nat.le_add_right _ _) ?_
      rw [Bytes.slice_of_prefix_drop hbehind]
      refine ⟨fun b hb hvisible => ?_, behind, [], [], by simp, fun hw => hblank (hw s rfl), fun _ => Blank.nil,
        .inr ⟨trivial, rfl⟩⟩
      rw [hquiet b hb] at hvisible
      cases hvisible
  | more u v hu ih =>
    rw [Bytes.splitOn_append, Bytes.splitOn_of_not_mem hu, List.singleton_append, specifiersFrom]
    cases hs : specifier? (p + pend.length) u with
    | none =>
      have hthere' : pend ++ u ++ [comma] ++ v <+: content.drop p := by simpa using hthere
      have hmore := ih (hpend.snoc (blank_of_specifier?_eq_none hs)) hthere'
      simpa [Nat.add_assoc] using hmore
    | some s =>
      refine entries_of_piece hpend hthere hu hs fun behind hquiet hblank hbehind hlength => ?_
      have hthere' : behind ++ [comma] ++ v <+: content.drop s.span.stop := by simpa using hbehind
      have hmore := ih (Pending.behind hquiet hblank) hthere'
      have hpos : s.span.stop + (behind ++ [comma]).length = p + pend.length + u.length + 1 := by
        simp only [List.length_append, List.length_singleton] at hlength ⊢
        omega
      have hend : s.span.stop + (behind ++ [comma] ++ v).length = p + (pend ++ (u ++ comma :: v)).length := by
        simp only [List.length_append, List.length_cons, List.length_nil] at hlength ⊢
        omega
      rwa [hpos, hend] at hmore

namespace Entries

variable {specs rest : List Specifier}

theorem le (h : Entries content stop prev p specs) : p ≤ stop := by
  induction h with
  | nil le _ => exact le
  | cons le lt _ _ _ _ ih => omega

theorem bounds (h : Entries content stop prev p specs) :
    ∀ s ∈ specs, p ≤ s.span.start ∧ s.span.start < s.span.stop ∧ s.span.stop ≤ stop := by
  induction h with
  | nil => exact fun s hs => absurd hs List.not_mem_nil
  | cons le lt _ _ _ more ih =>
    refine List.forall_mem_cons.mpr ⟨⟨le, lt, more.le⟩, fun t ht => ?_⟩
    have := ih t ht
    omega

theorem found (h : Entries content stop prev p specs) : ∀ s ∈ specs, s.span.text content = s.text := by
  induction h with
  | nil => exact fun s hs => absurd hs List.not_mem_nil
  | cons _ _ _ found _ _ ih => exact List.forall_mem_cons.mpr ⟨found, ih⟩

theorem isEntry (h : Entries content stop prev p specs) : ∀ s ∈ specs, IsEntry s.text := by
  induction h with
  | nil => exact fun s hs => absurd hs List.not_mem_nil
  | cons _ _ entry _ _ _ ih => exact List.forall_mem_cons.mpr ⟨entry, ih⟩

theorem le_last (h : Entries content stop (some s) s.span.stop rest) :
    s.span.stop ≤ (rest.getLast?.getD s).span.stop ∧ ∀ t ∈ rest, t.span.stop ≤ (rest.getLast?.getD s).span.stop := by
  induction rest generalizing s with
  | nil => exact ⟨Nat.le_refl _, fun t ht => absurd ht List.not_mem_nil⟩
  | cons t rest ih =>
    cases h with
    | cons le lt _ _ _ more =>
      obtain ⟨hself, hrest⟩ := ih more
      rw [List.getLast?_cons]
      exact ⟨(le.trans lt.le).trans hself, List.forall_mem_cons.mpr ⟨hself, hrest⟩⟩

/-- What lies behind the last entry. -/
theorem last (h : Entries content stop (some s) s.span.stop rest) :
    let last := rest.getLast?.getD s
    Entries content stop (some last) last.span.stop [] := by
  induction rest generalizing s with
  | nil => exact h
  | cons t rest ih =>
    cases h with
    | cons _ _ _ _ _ more =>
      rw [List.getLast?_cons]
      exact ih more

end Entries

end Spread

end Codemod.Release12
