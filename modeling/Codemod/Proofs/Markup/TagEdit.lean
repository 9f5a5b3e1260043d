import Codemod.Proofs.Markup.AttributePosition

namespace Codemod.Markup

open Edit TagState

/-- From left to right and behind an offset, also with the white space in front of each. -/
def Spaced (content : Bytes) (lo : Nat) : List Attribute → Prop
  | [] => True
  | a :: rest => lo ≤ (a.removalSpan content).start ∧ (a.removalSpan content).start < a.span.stop ∧
    Spaced content a.span.stop rest

theorem Spaced.mono {content : Bytes} {lo lo' : Nat} (hlo : lo' ≤ lo) {attrs : List Attribute}
    (h : Spaced content lo attrs) : Spaced content lo' attrs := by
  cases attrs with
  | nil => trivial
  | cons a rest => exact ⟨Nat.le_trans hlo h.1, h.2⟩

theorem Spaced.sublist {content : Bytes} {attrs some : List Attribute} (hsub : some.Sublist attrs) {lo : Nat}
    (h : Spaced content lo attrs) : Spaced content lo some := by
  induction hsub generalizing lo with
  | slnil => trivial
  | cons a _ ih =>
    obtain ⟨h1, h2, h3⟩ := h
    exact ih (h3.mono (by omega))
  | cons_cons a _ ih => exact ⟨h.1, h.2.1, ih h.2.2⟩

/-- White space in front of an attribute does not reach over another byte. -/
theorem removalSpan_start_ge {content pre rest : Bytes} {z : UInt8} (a : Attribute) (hz : isSpace z = false)
    (hcontent : content = pre ++ z :: rest) (hpos : pre.length < a.span.start) :
    pre.length + 1 ≤ (a.removalSpan content).start := by
  have htake : content.take a.span.start = (pre ++ [z]) ++ rest.take (a.span.start - (pre.length + 1)) := by
    rw [hcontent, show pre ++ z :: rest = (pre ++ [z]) ++ rest by simp, List.take_append,
      List.take_of_length_le (by simp; omega)]
    simp
  have hcount : ((content.take a.span.start).reverse.takeWhile isSpace).length ≤ a.span.start - (pre.length + 1) := by
    rw [htake, List.reverse_append, List.reverse_append, List.reverse_singleton, List.singleton_append,
      takeWhile_append_of_head (p := isSpace) _ hz]
    refine Nat.le_trans (List.takeWhile_prefix _).length_le ?_
    rw [List.length_reverse, List.length_take]
    omega
  simp only [Attribute.removalSpan]
  omega

theorem removalSpan_start_le (a : Attribute) (content : Bytes) : (a.removalSpan content).start ≤ a.span.start := by
  simp only [Attribute.removalSpan]
  omega

/-- The attributes behind a byte that is no white space can be taken out one by one. -/
theorem spaced_scanAll {content pre : Bytes} {c : Cursor} {z : UInt8} {post : Bytes}
    (hcontent : content = (pre ++ [z]) ++ (c.rest ++ post)) (hpos : c.pos = (pre ++ [z]).length)
    (hz : isSpace z = false) (hclosed : gap.finish c.rest ≠ none) : Spaced content c.pos (Attribute.scanAll c) := by
  induction hn : c.rest.length using Nat.strong_induction_on generalizing c pre z with
  | _ n ih =>
  subst hn
  rcases Attribute.scanAll_step hclosed with ⟨h, -⟩ | ⟨a, next, breaks, used, hstep⟩
  · rw [h]
    trivial
  have hused := List.length_pos_iff.mpr hstep.nonempty
  have hnext : next.pos = c.pos + (breaks ++ used).length := hstep.moved.2
  rw [List.length_append] at hpos hnext
  have hstart : a.span.start = c.pos + breaks.length := by rw [hstep.span]
  have hstop : a.span.stop = next.pos := by rw [hstep.span]
  rw [hstep.all]
  refine ⟨?_, ?_, ?_⟩
  · have hsplit : content = pre ++ z :: (c.rest ++ post) := by rw [hcontent]; simp
    have hge := removalSpan_start_ge a hz hsplit (by simp at hpos; omega)
    simp at hpos
    omega
  · have := removalSpan_start_le a content
    omega
  · rw [hstop]
    rcases hstep.tight with ⟨s, y, hy, hsp⟩ | hend
    · have hsplit : content = (pre ++ [z] ++ breaks ++ s ++ [y]) ++ (next.rest ++ post) := by
        rw [hcontent, hstep.moved.1, hy]
        simp
      refine ih _ hstep.length_lt hsplit ?_ hsp ?_ rfl
      · rw [hnext, hy, hpos]
        simp
        omega
      · rw [hstep.finish]
        exact hclosed
    · have hnil : Attribute.scanAll next = [] := by
        rcases Attribute.scanAll_cases next with ⟨h, -⟩ | ⟨x, r, hx, hgt, -⟩
        · exact h
        · exfalso
          have hx' : next.rest.dropWhile isBreak = x :: r := hx
          rcases hend with hend | hend
          · rw [hend] at hx'
            cases hx'
          · cases hr : next.rest with
            | nil => simp [hr] at hend
            | cons y t =>
              obtain rfl : y = 62 := by simpa [hr] using hend
              rw [hr, List.dropWhile_cons_of_neg (by decide)] at hx'
              exact hgt (List.cons.inj hx').1.symm
      rw [hnil]
      trivial

/-- The content between two offsets without some attributes. -/
def cutOut (content : Bytes) (lo : Nat) : List Attribute → Nat → Script
  | [], hi => [.keep (content.slice lo hi)]
  | a :: rest, hi =>
    .keep (content.slice lo (a.removalSpan content).start) ::
      .edit (.deleteSpan content (a.removalSpan content)) :: cutOut content a.span.stop rest hi

section CutOut

variable {content : Bytes} {lo hi : Nat} {attrs : List Attribute}

theorem slice_length {start stop : Nat} (h : stop ≤ content.length) :
    (content.slice start stop).length = stop - start := by
  simp only [Bytes.slice, List.length_drop, List.length_take]
  omega

theorem slice_join {a b c : Nat} (h1 : a ≤ b) (h2 : b ≤ c) (h3 : c ≤ content.length) :
    content.slice a b ++ content.slice b c = content.slice a c := by
  simp only [Bytes.slice]
  conv_rhs => rw [← List.take_append_drop b (content.take c), List.take_take, Nat.min_eq_left h2]
  rw [List.drop_append, List.drop_take, List.drop_take]
  congr 1
  rw [List.length_take, Nat.min_eq_left (by omega), Nat.sub_eq_zero_of_le h1]
  simp

theorem removalSpan_stop (a : Attribute) : (a.removalSpan content).stop = a.span.stop := rfl

/-- Every attribute ends before an offset. -/
def Before (hi : Nat) (attrs : List Attribute) : Prop := ∀ a ∈ attrs, a.span.stop ≤ hi

theorem source_cutOut (hs : Spaced content lo attrs) (hhi : Before hi attrs) (hlo : lo ≤ hi)
    (hlen : hi ≤ content.length) : (cutOut content lo attrs hi).source = content.slice lo hi := by
  induction attrs generalizing lo with
  | nil => simp [cutOut]
  | cons a rest ih =>
    obtain ⟨h1, h2, h3⟩ := hs
    have hstop := hhi a (List.mem_cons_self ..)
    have hrest := ih h3 (fun b hb => hhi b (List.mem_cons_of_mem a hb)) hstop
    simp only [cutOut, Script.source_keep, Script.source_edit, Change.deleteSpan, Change.replaceSpan,
      Change.replace, Change.removed, if_true, Span.text, removalSpan_stop, hrest]
    rw [slice_join (by omega) hstop hlen, slice_join h1 (by omega) hlen]

theorem fits_cutOut (hs : Spaced content lo attrs) (hhi : Before hi attrs) (hlen : hi ≤ content.length) :
    (cutOut content lo attrs hi).Fits lo := by
  induction attrs generalizing lo with
  | nil => simp [cutOut]
  | cons a rest ih =>
    obtain ⟨h1, h2, h3⟩ := hs
    have hstop := hhi a (List.mem_cons_self ..)
    have hrest := ih h3 fun b hb => hhi b (List.mem_cons_of_mem a hb)
    simp only [cutOut, Script.fits_keep, Script.Fits, Change.deleteSpan, Change.replaceSpan, Change.replace,
      Change.removed, if_true, Span.text, removalSpan_stop]
    rw [slice_length (by omega), slice_length (by omega)]
    refine ⟨by omega, Or.inr trivial, ?_⟩
    rw [show lo + ((a.removalSpan content).start - lo) + (a.span.stop - (a.removalSpan content).start) =
      a.span.stop by omega]
    exact hrest

@[simp] theorem changes_cutOut :
    (cutOut content lo attrs hi).changes = attrs.map fun a => .deleteSpan content (a.removalSpan content) := by
  induction attrs generalizing lo with
  | nil => rfl
  | cons a rest ih => simp [cutOut, ih]

theorem Spaced.start_ge (hs : Spaced content lo attrs) :
    ∀ a ∈ attrs, lo ≤ (a.removalSpan content).start ∧ (a.removalSpan content).start < a.span.stop := by
  induction attrs generalizing lo with
  | nil => simp
  | cons b rest ih =>
    obtain ⟨h1, h2, h3⟩ := hs
    intro a ha
    rcases List.mem_cons.mp ha with rfl | ha
    · exact ⟨h1, h2⟩
    · obtain ⟨g1, g2⟩ := ih h3 a ha
      exact ⟨by omega, g2⟩

/-- The last attribute ends behind the others. -/
theorem Spaced.before (hs : Spaced content lo attrs) {last : Attribute} (hlast : attrs.getLast? = some last) :
    Before last.span.stop attrs := by
  obtain ⟨front, rfl⟩ := List.getLast?_eq_some_iff.mp hlast
  induction front generalizing lo with
  | nil =>
    intro a ha
    rw [List.mem_singleton.mp ha]
  | cons b front ih =>
    obtain ⟨-, -, h3⟩ := hs
    have hrest := ih h3 (by simp)
    have hge := h3.start_ge last (by simp)
    intro a ha
    rcases List.mem_cons.mp ha with rfl | ha
    · omega
    · exact hrest a ha

theorem removed_ne_nil {a : Attribute} (h : (a.removalSpan content).start < a.span.stop)
    (hlen : a.span.stop ≤ content.length) : (a.removalSpan content).text content ≠ [] := by
  refine List.length_pos_iff.mp ?_
  rw [Span.text, slice_length (by rw [removalSpan_stop]; omega), removalSpan_stop]
  omega

theorem pairwise_cutOut (hs : Spaced content lo attrs) :
    (attrs.map fun a => Change.deleteSpan content (a.removalSpan content)).Pairwise fun a b => a.key ≠ b.key := by
  induction attrs generalizing lo with
  | nil => exact List.Pairwise.nil
  | cons a rest ih =>
    obtain ⟨h1, h2, h3⟩ := hs
    refine List.pairwise_cons.mpr ⟨?_, ih h3⟩
    intro c hc
    obtain ⟨b, hb, rfl⟩ := List.mem_map.mp hc
    have hge := (h3.start_ge b hb).1
    simp only [Change.key, Change.deleteSpan, Change.replaceSpan, Change.replace, ne_eq, Prod.mk.injEq]
    omega

end CutOut

/-- The start tag up to an offset, without some attributes and with another one behind the last. -/
def tagEdits (content : Bytes) (e : Element) (dropped : List Attribute) (added : Option Bytes) (stop : Nat) :
    Script :=
  cutOut content e.startTag.start dropped e.attributePos ++
    (added.toList.map (fun text => .edit (.insert e.attributePos text)) ++
      [.keep (content.slice e.attributePos stop)])

theorem changes_tagEdits (content : Bytes) (e : Element) (dropped : List Attribute) (added : Option Bytes)
    (stop : Nat) : (tagEdits content e dropped added stop).changes =
      dropped.map (fun a => .deleteSpan content (a.removalSpan content)) ++
        added.toList.map (.insert e.attributePos) := by
  cases added <;> simp [tagEdits]

section TagEdits

variable {content w : Bytes} {x : Spot} {dropped : List Attribute} {added : Option Bytes}

/-- Where the attributes of an element stand. -/
structure Spot.Attributes (x : Spot) (content : Bytes) (used breaks : Bytes) : Prop where
  cut : AttributesCut x.tag x.selfClosing used breaks
  pos : x.element.attributePos = x.pos + 1 + used.length
  spaced : Spaced content (x.pos + 1) x.element.attrs
  before : Before x.element.attributePos x.element.attrs

theorem Spot.In.attributes (hx : x.In content) : ∃ used breaks, x.Attributes content used breaks := by
  obtain ⟨used, breaks, hcut, hpos⟩ := hx.start.exists_attributesCut (p := x.pos) x.inner x.close
  have hspaced : Spaced content (x.pos + 1) x.element.attrs := by
    obtain ⟨pre, post, hpre, hcontent⟩ := hx.split
    have hfinish : gap.finish ((x.tag.drop 1).dropWhile (!isNameEnd ·)) ≠ none := by
      rw [← name_finish_eq, hx.start.finish]
      simp
    have hname := hx.start.tagName
    obtain ⟨front, z, hz⟩ : ∃ front z, startTagName x.tag = front ++ [z] := by
      have hne : startTagName x.tag ≠ [] := by
        intro h
        have := hname.letter
        simp [h] at this
      exact ⟨_, _, (List.dropLast_append_getLast hne).symm⟩
    have hzspace : isSpace z = false := by
      have := hname.plain z (by simp [hz])
      simp only [isNameEnd, Bool.or_eq_false_iff] at this
      exact this.1.1
    have htag : x.tag = 60 :: (startTagName x.tag ++ (x.tag.drop 1).dropWhile (!isNameEnd ·)) := by
      obtain ⟨d, t, ht, -, -⟩ := hx.start.eq_cons
      rw [startTagName, List.takeWhile_append_dropWhile, ht]
      rfl
    have hsplit : content = (pre ++ 60 :: front ++ [z]) ++ ((Cursor.skip (!isNameEnd ·) ⟨x.pos + 1, x.tag.drop 1⟩).rest ++
        (render x.inner.pieces ++ (x.close.getD [] ++ post))) := by
      rw [hcontent]
      conv_lhs => rw [htag, hz]
      simp [Cursor.skip]
    have hspaced := spaced_scanAll hsplit (by
        have hlen : ((x.tag.drop 1).takeWhile (!isNameEnd ·)).length = front.length + 1 := by
          have := congrArg List.length hz
          rw [List.length_append] at this
          exact this
        simp only [Cursor.skip, hlen, List.length_append, List.length_cons, List.length_nil]
        omega) hzspace hfinish
    exact hspaced.mono (by simp only [Cursor.skip]; omega)
  refine ⟨used, breaks, hcut, hpos, hspaced, ?_⟩
  cases hlast : x.element.attrs.getLast? with
  | none =>
    rw [List.getLast?_eq_none_iff.mp hlast]
    simp [Before]
  | some a =>
    have hat : x.element.attributePos = a.span.stop := by simp only [Element.attributePos, hlast]
    rw [hat]
    exact hspaced.before hlast

theorem Spot.Attributes.length {used breaks : Bytes} (h : x.Attributes content used breaks) :
    x.tag.length = 1 + used.length + breaks.length + 1 := by
  rw [h.cut.split]
  simp
  omega

theorem Spot.In.stop_le (hx : x.In content) : x.pos + x.tag.length ≤ content.length := by
  obtain ⟨pre, post, hpre, hcontent⟩ := hx.split
  rw [hcontent, ← hpre]
  simp

theorem Spot.In.slice_take (hx : x.In content) {n : Nat} (hn : n ≤ x.tag.length) :
    content.slice x.pos (x.pos + n) = x.tag.take n := by
  obtain ⟨pre, post, hpre, hcontent⟩ := hx.split
  have h : Bytes.slice (pre ++ x.tag ++ (render x.inner.pieces ++ (x.close.getD [] ++ post))) x.pos (x.pos + n) =
      x.tag.slice (x.pos - pre.length) (x.pos + n - pre.length) := slice_append (by omega) (by omega)
  rw [List.append_assoc, ← hcontent] at h
  rw [h, hpre, Nat.sub_self, Nat.add_sub_cancel_left]
  rfl

theorem Spot.In.slice_close (hx : x.In content) {c : Bytes} (hc : x.close = some c) :
    content.slice x.closePos (x.closePos + c.length) = c := by
  obtain ⟨pre, post, hpre, hcontent⟩ := hx.split
  have h := slice_self (pre ++ (x.tag ++ render x.inner.pieces)) c post
  rw [hc] at hcontent
  have hpos : (pre ++ (x.tag ++ render x.inner.pieces)).length = x.closePos := by
    simp [Spot.closePos, hpre, Source.length_render, Nat.add_assoc]
  rw [hpos, show pre ++ (x.tag ++ render x.inner.pieces) ++ c ++ post = content by rw [hcontent]; simp] at h
  exact h

theorem Spot.In.slice_tag (hx : x.In content) : content.slice x.pos (x.pos + x.tag.length) = x.tag := by
  rw [hx.slice_take (Nat.le_refl _), List.take_length]

/-- The edits of a start tag stand inside it. -/
theorem inside_tagEdits (stop : Nat) (hx : x.In content) (hdrop : dropped.Sublist x.element.attrs)
    (hadd : ∀ text ∈ added, text ≠ w) (h1 : x.element.attributePos ≤ stop)
    (h2 : stop ≤ x.pos + x.tag.length) :
    (tagEdits content x.element dropped added stop).source = content.slice x.pos stop ∧
      Inside w x (tagEdits content x.element dropped added stop) := by
  obtain ⟨used, breaks, h⟩ := hx.attributes
  have hlen := hx.stop_le
  have htag := h.length
  have hpos := h.pos
  have hspaced : Spaced content (x.pos + 1) dropped := h.spaced.sublist hdrop
  have hbefore : Before x.element.attributePos dropped := fun a ha => h.before a (hdrop.mem ha)
  have hstart : x.element.startTag.start = x.pos := rfl
  have hsource := source_cutOut (hspaced.mono (Nat.le_succ _)) hbefore (by omega) (by omega)
  have hchange : ∀ c ∈ (tagEdits content x.element dropped added stop).changes,
      (∃ a ∈ dropped, c = .deleteSpan content (a.removalSpan content)) ∨
        ∃ text ∈ added, c = .insert x.element.attributePos text := by
    intro c hc
    rw [changes_tagEdits, List.mem_append] at hc
    rcases hc with hc | hc
    · obtain ⟨a, ha, rfl⟩ := List.mem_map.mp hc
      exact Or.inl ⟨a, ha, rfl⟩
    · obtain ⟨t, ht, rfl⟩ := List.mem_map.mp hc
      exact Or.inr ⟨t, by simpa using ht, rfl⟩
  refine ⟨?_, ?_, ?_, ?_, ?_, ?_⟩
  · have hrest : ∀ o : Option Bytes, Script.source (o.toList.map (fun text =>
        Segment.edit (.insert x.element.attributePos text)) ++ [.keep (content.slice x.element.attributePos stop)]) =
          content.slice x.element.attributePos stop := by
      intro o
      cases o <;> simp [Change.insert, Change.removed]
    rw [tagEdits, Script.source_append, hrest, hstart, hsource]
    exact slice_join (by omega) h1 (by omega)
  · refine Script.fits_append.mpr ⟨fits_cutOut (hspaced.mono (Nat.le_succ _)) hbefore (by omega), ?_⟩
    rw [hstart, hsource, slice_length (by omega)]
    cases added with
    | none => simp
    | some text =>
      simp only [Option.toList_some, List.map_cons, List.map_nil, List.singleton_append, Script.Fits, Change.insert]
      exact ⟨by omega, Or.inl trivial, trivial⟩
  · rw [changes_tagEdits]
    refine List.pairwise_append.mpr ⟨pairwise_cutOut hspaced, by cases added <;> simp, ?_⟩
    intro a ha b hb
    obtain ⟨y, -, rfl⟩ := List.mem_map.mp ha
    obtain ⟨t, -, rfl⟩ := List.mem_map.mp hb
    simp [Change.key, Change.deleteSpan, Change.replaceSpan, Change.replace, Change.insert, Mode.code]
  · intro c hc
    rcases hchange c hc with ⟨a, ha, rfl⟩ | ⟨t, -, rfl⟩
    · have hge := hspaced.start_ge a ha
      have hle := hbefore a ha
      simp only [Change.deleteSpan, Change.replaceSpan, Change.replace]
      omega
    · simp only [Change.insert]
      omega
  · intro c hc
    rcases hchange c hc with ⟨a, -, rfl⟩ | ⟨t, ht, rfl⟩
    · simp [Change.inserts, Change.deleteSpan, Change.replaceSpan, Change.replace]
    · simp [Change.inserts, Change.insert, hadd t ht]
  · intro c hc hm
    rcases hchange c hc with ⟨a, ha, rfl⟩ | ⟨t, -, rfl⟩
    · have hle := hbefore a ha
      exact removed_ne_nil (hspaced.start_ge a ha).2 (by omega)
    · cases hm

/-- Where the edits of a start tag end whose element gets first children. -/
def openStop (e : Element) : Nat := if e.selfClosing then e.startTag.stop - 2 else e.startTag.stop

theorem retag_fits (hx : x.In content) (hdrop : dropped.Sublist x.element.attrs)
    (hadd : ∀ text ∈ added, text ≠ w) :
    (Patch.retag (tagEdits content x.element dropped added x.element.startTag.stop)).Fits w x := by
  obtain ⟨used, breaks, h⟩ := hx.attributes
  have htag := h.length
  have hpos := h.pos
  have hstop : x.element.startTag.stop = x.pos + x.tag.length := rfl
  obtain ⟨hsource, hin⟩ := inside_tagEdits x.element.startTag.stop hx hdrop hadd (by omega) (by omega)
  exact ⟨by rw [hsource, hstop, hx.slice_tag], hin⟩

theorem Spot.Attributes.breaks_of_selfClosing {used breaks : Bytes} (hx : x.In content)
    (h : x.Attributes content used breaks) (hself : x.selfClosing = true) :
    ∃ front, breaks = front ++ [47] := by
  obtain ⟨front, hfront, -⟩ := AttributesCut.isStartTag_opened (hself ▸ hx.start) (hself ▸ h.cut)
  exact ⟨front, hfront⟩

theorem fill_fits (hx : x.In content) (hclose : x.selfClosing = true ∨ x.close.isSome)
    (hdrop : dropped.Sublist x.element.attrs) (hadd : ∀ text ∈ added, text ≠ w) {first : Source}
    (hfirst : render first.pieces ≠ w) :
    (Patch.fill (tagEdits content x.element dropped added (openStop x.element)) first).Fits w x := by
  obtain ⟨used, breaks, h⟩ := hx.attributes
  have htag := h.length
  have hpos := h.pos
  have hstop : x.element.startTag.stop = x.pos + x.tag.length := rfl
  have hself : x.element.selfClosing = x.selfClosing := rfl
  by_cases hs : x.selfClosing = true
  · obtain ⟨front, rfl⟩ := h.breaks_of_selfClosing hx hs
    rw [List.length_append] at htag
    simp only [List.length_cons, List.length_nil] at htag
    have hopen : openStop x.element = x.pos + (x.tag.length - 2) := by
      simp only [openStop, hself, hs, hstop, if_true]
      omega
    obtain ⟨hsource, hin⟩ := inside_tagEdits (openStop x.element) hx hdrop hadd (by omega) (by omega)
    refine ⟨?_, hin, hfirst⟩
    rw [if_pos hs, hsource, hopen, hx.slice_take (by omega)]
    have hend : x.tag = (60 :: (used ++ front)) ++ bytes "/>" := by
      rw [h.cut.split]
      simp
      rfl
    have htake : x.tag.length - 2 = (60 :: (used ++ front)).length := by
      simp
      omega
    rw [htake]
    conv_lhs => rw [hend, List.take_left]
    exact hend.symm
  · have hopen : openStop x.element = x.pos + x.tag.length := by simp [openStop, hself, hs, hstop]
    obtain ⟨hsource, hin⟩ := inside_tagEdits (openStop x.element) hx hdrop hadd (by omega) (by omega)
    refine ⟨?_, hin, hfirst⟩
    rw [if_neg hs, hsource, hopen, hx.slice_tag]
    exact ⟨rfl, hclose.resolve_left hs⟩

/-- A start tag up to an offset behind its attributes, from which none is dropped. -/
theorem target_tagEdits_nil {used breaks : Bytes} (hx : x.In content) (h : x.Attributes content used breaks)
    {n : Nat} (hn : n ≤ breaks.length + 1) :
    (tagEdits content x.element [] added (x.element.attributePos + n)).target =
      60 :: (used ++ (added.getD [] ++ (breaks ++ [62]).take n)) := by
  have htag := h.length
  have hpos := h.pos
  have hstart : x.element.startTag.start = x.pos := rfl
  have hfront : content.slice x.pos x.element.attributePos = 60 :: used := by
    rw [hpos, show x.pos + 1 + used.length = x.pos + (used.length + 1) by omega, hx.slice_take (by omega), h.cut.split]
    simp
  have hback : content.slice x.element.attributePos (x.element.attributePos + n) = (breaks ++ [62]).take n := by
    have hall : content.slice x.pos x.element.attributePos ++
        content.slice x.element.attributePos (x.element.attributePos + n) =
          content.slice x.pos (x.element.attributePos + n) :=
      slice_join (by omega) (by omega) (by have := hx.stop_le; omega)
    rw [hfront, hpos, show x.pos + 1 + used.length + n = x.pos + (used.length + 1 + n) by omega,
      hx.slice_take (by omega), h.cut.split] at hall
    have htake : (60 :: (used ++ (breaks ++ [62]))).take (used.length + 1 + n) =
        (60 :: used) ++ (breaks ++ [62]).take n := by
      rw [show used.length + 1 + n = used.length + n + 1 by omega, List.take_succ_cons, List.take_append,
        List.take_of_length_le (by omega), Nat.add_sub_cancel_left, List.cons_append]
    rw [htake] at hall
    rw [hpos, show x.pos + 1 + used.length + n = x.pos + (used.length + 1 + n) by omega]
    exact List.append_cancel_left hall
  cases added with
  | none => simp [tagEdits, cutOut, hstart, hfront, hback]
  | some text => simp [tagEdits, cutOut, hstart, hfront, hback, Change.insert]

theorem isStartTag_added (hx : x.In content) (key value : Bytes) (hkey : ∀ b ∈ key, Bytes.isLetter b = true)
    (hne : key ≠ []) (hvalue : ∀ b ∈ value, Bytes.isLetter b = true) :
    IsStartTag (tagEdits content x.element [] (some (addedAttribute key value)) x.element.startTag.stop).target
      x.selfClosing ∧
    startTagName (tagEdits content x.element [] (some (addedAttribute key value)) x.element.startTag.stop).target =
      x.name := by
  obtain ⟨used, breaks, h⟩ := hx.attributes
  have hstop : x.element.startTag.stop = x.element.attributePos + (breaks.length + 1) := by
    have htag := h.length
    have hpos := h.pos
    have : x.element.startTag.stop = x.pos + x.tag.length := rfl
    omega
  rw [hstop, target_tagEdits_nil hx h (Nat.le_refl _), List.take_of_length_le (by simp)]
  exact h.cut.isStartTag_added hkey hne hvalue hx.start

/-- A tag that is opened for children is one start tag, unless it ends in two slashes. -/
theorem isStartTag_opened (hx : x.In content) (hslash : x.tag.endsWith "//>" = false) :
    IsStartTag (Patch.filledTag (tagEdits content x.element [] none (openStop x.element)) x.selfClosing) false ∧
      startTagName (Patch.filledTag (tagEdits content x.element [] none (openStop x.element)) x.selfClosing) =
        x.name := by
  obtain ⟨used, breaks, h⟩ := hx.attributes
  have htag := h.length
  have hpos := h.pos
  have hstop : x.element.startTag.stop = x.pos + x.tag.length := rfl
  have hself : x.element.selfClosing = x.selfClosing := rfl
  by_cases hs : x.selfClosing = true
  · obtain ⟨front, rfl, hopened⟩ := AttributesCut.isStartTag_opened (hs ▸ hx.start) (hs ▸ h.cut)
    rw [List.length_append] at htag
    simp only [List.length_cons, List.length_nil] at htag
    have hopen : openStop x.element = x.element.attributePos + front.length := by
      simp only [openStop, hself, hs, hstop, if_true]
      omega
    have hne : front.getLast? ≠ some 47 := by
      intro hlast
      obtain ⟨rest, rfl⟩ := List.getLast?_eq_some_iff.mp hlast
      have hsuffix : bytes "//>" <:+ x.tag := ⟨60 :: (used ++ rest), by rw [h.cut.split]; simp; rfl⟩
      rw [Bytes.endsWith, List.isSuffixOf_iff_suffix.mpr hsuffix] at hslash
      cases hslash
    have htarget : Patch.filledTag (tagEdits content x.element [] none (openStop x.element)) x.selfClosing =
        60 :: (used ++ (front ++ [62])) := by
      rw [hopen, Patch.filledTag, if_pos hs, target_tagEdits_nil hx h (by simp; omega)]
      simp
      rfl
    rw [htarget]
    exact hopened hne
  · have hopen : openStop x.element = x.element.attributePos + (breaks.length + 1) := by
      simp only [openStop, hself, hs, hstop]
      simp
      omega
    have htarget : Patch.filledTag (tagEdits content x.element [] none (openStop x.element)) x.selfClosing = x.tag := by
      rw [hopen, Patch.filledTag, if_neg hs, target_tagEdits_nil hx h (Nat.le_refl _),
        List.take_of_length_le (by simp)]
      conv_rhs => rw [h.cut.split]
      simp
    rw [htarget]
    have hstart := hx.start
    rw [Bool.eq_false_iff.mpr hs] at hstart
    exact ⟨hstart, rfl⟩

end TagEdits

end Codemod.Markup
