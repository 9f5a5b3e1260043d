import Codemod.Proofs.Edit.InPlace
import Codemod.Proofs.Edit.Script
import Codemod.Proofs.Markup.TagEdit

namespace Codemod.Edit

open Markup

/-- The change takes something away. -/
def Change.Takes (c : Change) : Prop := c.mode = .replace ∧ c.remove ≠ []

theorem Change.takes_replace {pos : Nat} {remove text : Bytes} (h : remove ≠ []) : (replace pos remove text).Takes :=
  ⟨rfl, h⟩

namespace Script

variable {s : Script} {p : Nat}

/-- Changes that all take something away stand at different places, from left to right. -/
theorem positions_lt (hs : s.Fits p) (htakes : ∀ c ∈ s.changes, c.Takes) :
    s.changes.Pairwise fun a b => a.position < b.position := by
  induction s generalizing p with
  | nil => exact List.Pairwise.nil
  | cons x s ih =>
    cases x with
    | keep text => exact ih hs htakes
    | edit c =>
      obtain ⟨hp, -, hs⟩ := hs
      obtain ⟨⟨hm, hne⟩, hrest⟩ := List.forall_mem_cons.mp htakes
      refine List.pairwise_cons.mpr ⟨fun d hd => ?_, ih hs hrest⟩
      have hge := position_ge hs d hd
      have hpos := List.length_pos_iff.mpr hne
      simp only [Change.removed, hm, if_true] at hge
      omega

/-- They may be asked for in any order. -/
theorem applyChanges_of_perm (hs : s.Fits 0) (htakes : ∀ c ∈ s.changes, c.Takes) {cs : List Change}
    (hperm : cs.Perm s.changes) : applyChanges s.source cs = .ok s.target := by
  refine applyChanges_eq hs (sorted_of_fits hs fun c hc _ => (htakes c hc).2) (keyed_eq_of_perm [] hperm ?_ ?_)
  · refine (positions_lt hs htakes).imp fun hlt hkey => ?_
    have := congrArg Prod.fst hkey
    simp only [Change.key] at this
    omega
  · refine List.pairwise_of_forall_mem_list fun a ha b _ hinserts => ?_
    rw [Change.inserts, (htakes a (hperm.mem_iff.mp ha)).1] at hinserts
    cases hinserts

end Script

/-- A range of a content and the text that takes its place. -/
structure Cut where
  span : Span
  text : Bytes
  deriving DecidableEq

def Cut.change (content : Bytes) (c : Cut) : Change := .replaceSpan content c.span c.text

/-- Ranges that stand one behind another between two offsets. -/
def Chain (q : Nat) : Nat → List Cut → Prop
  | p, [] => p ≤ q
  | p, c :: cs => p ≤ c.span.start ∧ c.span.start < c.span.stop ∧ Chain q c.span.stop cs

/-- The content between two offsets after the cuts. -/
def edited (content : Bytes) (q : Nat) : Nat → List Cut → Bytes
  | p, [] => content.slice p q
  | p, c :: cs => content.slice p c.span.start ++ c.text ++ edited content q c.span.stop cs

variable {content : Bytes} {p m q : Nat} {cs ds : List Cut}

namespace Chain

theorem le (h : Chain q p cs) : p ≤ q := by
  induction cs generalizing p with
  | nil => exact h
  | cons c cs ih =>
    obtain ⟨hstart, hne, hrest⟩ := h
    exact (hstart.trans hne.le).trans (ih hrest)

theorem append (hcs : Chain m p cs) (hds : Chain q m ds) : Chain q p (cs ++ ds) := by
  induction cs generalizing p with
  | nil =>
    have hpm : p ≤ m := hcs
    cases ds with
    | nil => exact hpm.trans hds
    | cons d ds => exact ⟨hpm.trans hds.1, hds.2⟩
  | cons c cs ih =>
    obtain ⟨hstart, hne, hrest⟩ := hcs
    exact ⟨hstart, hne, ih hrest⟩

theorem bounds (h : Chain q p cs) : ∀ c ∈ cs, p ≤ c.span.start ∧ c.span.start < c.span.stop ∧ c.span.stop ≤ q := by
  induction cs generalizing p with
  | nil => exact fun c hc => absurd hc List.not_mem_nil
  | cons c cs ih =>
    obtain ⟨hstart, hne, hrest⟩ := h
    refine List.forall_mem_cons.mpr ⟨⟨hstart, hne, hrest.le⟩, fun d hd => ?_⟩
    obtain ⟨hle, hd⟩ := ih hrest d hd
    exact ⟨(hstart.trans hne.le).trans hle, hd⟩

/-- A chain between wider bounds. -/
theorem widen {p' q' : Nat} (h : Chain q p cs) (hp : p' ≤ p) (hq : q ≤ q') : Chain q' p' cs := by
  have hleft : Chain p p' [] := hp
  have hright : Chain q' q [] := hq
  simpa using (hleft.append h).append hright

end Chain

/-- The edited text of two stretches in a row. -/
theorem edited_append (hcs : Chain m p cs) (hds : Chain q m ds) (hq : q ≤ content.length) :
    edited content q p (cs ++ ds) = edited content m p cs ++ edited content q m ds := by
  induction cs generalizing p with
  | nil =>
    cases ds with
    | nil => exact (slice_join hcs hds hq).symm
    | cons d ds =>
      obtain ⟨hstart, hne, hrest⟩ := hds
      have hstop := hrest.le
      have hjoin : content.slice p m ++ content.slice m d.span.start = content.slice p d.span.start :=
        slice_join hcs hstart (by omega)
      rw [List.nil_append, edited, edited, edited, ← hjoin]
      simp only [List.append_assoc]
  | cons c cs ih =>
    rw [List.cons_append, edited, edited, ih hcs.2.2]
    simp only [List.append_assoc]

/-- A byte of the edited text is one of the content or of a new text. -/
theorem mem_edited {b : UInt8} (hcs : Chain q p cs) (hq : q ≤ content.length) (h : b ∈ edited content q p cs) :
    b ∈ content.slice p q ∨ ∃ c ∈ cs, b ∈ c.text := by
  induction cs generalizing p with
  | nil => exact .inl h
  | cons c cs ih =>
    obtain ⟨hstart, hne, hrest⟩ := hcs
    have hle := hrest.le
    have hjoin : content.slice p c.span.start ++ content.slice c.span.start q = content.slice p q :=
      slice_join hstart (by omega) hq
    have hjoin' : content.slice c.span.start c.span.stop ++ content.slice c.span.stop q = content.slice c.span.start q :=
      slice_join hne.le hle hq
    rw [edited, List.mem_append, List.mem_append] at h
    rw [← hjoin, ← hjoin', List.mem_append, List.mem_append]
    obtain (h | h) | h := h
    · exact .inl (.inl h)
    · exact .inr ⟨c, List.mem_cons_self, h⟩
    · obtain h | ⟨d, hd, h⟩ := ih hrest h
      · exact .inl (.inr (.inr h))
      · exact .inr ⟨d, List.mem_cons_of_mem _ hd, h⟩

/-- The cuts as a script. -/
def cutScript (content : Bytes) (q : Nat) : Nat → List Cut → Script
  | p, [] => [.keep (content.slice p q)]
  | p, c :: cs => .keep (content.slice p c.span.start) :: .edit (c.change content) :: cutScript content q c.span.stop cs

theorem cutScript_target : (cutScript content q p cs).target = edited content q p cs := by
  induction cs generalizing p with
  | nil => exact List.append_nil _
  | cons c cs ih =>
    rw [cutScript, Script.target_keep, Script.target_edit, ih, edited, List.append_assoc]
    rfl

theorem cutScript_changes : (cutScript content q p cs).changes = cs.map (Cut.change content) := by
  induction cs generalizing p with
  | nil => rfl
  | cons c cs ih => rw [cutScript, Script.changes_keep, Script.changes_edit, ih, List.map_cons]

theorem Cut.removed_change (c : Cut) : (c.change content).removed = content.slice c.span.start c.span.stop := rfl

theorem cutScript_source (h : Chain q p cs) (hq : q ≤ content.length) :
    (cutScript content q p cs).source = content.slice p q := by
  induction cs generalizing p with
  | nil => exact List.append_nil _
  | cons c cs ih =>
    obtain ⟨hstart, hne, hrest⟩ := h
    have hle := hrest.le
    rw [cutScript, Script.source_keep, Script.source_edit, ih hrest, Cut.removed_change, slice_join hne.le hle hq,
      slice_join hstart (hne.le.trans hle) hq]

theorem cutScript_fits (h : Chain q p cs) (hq : q ≤ content.length) : (cutScript content q p cs).Fits p := by
  induction cs generalizing p with
  | nil => trivial
  | cons c cs ih =>
    obtain ⟨hstart, hne, hrest⟩ := h
    have hle := hrest.le
    have hbefore : p + (content.slice p c.span.start).length = c.span.start := by
      rw [slice_length (by omega)]
      omega
    have hremoved : c.span.start + (c.change content).removed.length = c.span.stop := by
      rw [Cut.removed_change, slice_length (by omega)]
      omega
    rw [cutScript, Script.fits_keep, hbefore]
    refine ⟨rfl, .inr rfl, ?_⟩
    rw [hremoved]
    exact ih hrest

/-- Changes that cut a content, asked for in any order. -/
theorem applyChanges_cuts (h : Chain content.length 0 cs) {changes : List Change}
    (hperm : changes.Perm (cs.map (Cut.change content))) :
    applyChanges content changes = .ok (edited content content.length 0 cs) := by
  rw [← cutScript_changes (q := content.length) (p := 0)] at hperm
  have htakes : ∀ c ∈ (cutScript content content.length 0 cs).changes, c.Takes := by
    intro change hchange
    rw [cutScript_changes] at hchange
    obtain ⟨c, hc, rfl⟩ := List.mem_map.mp hchange
    obtain ⟨-, hlt, hstop⟩ := h.bounds c hc
    refine Change.takes_replace (List.ne_nil_of_length_pos ?_)
    rw [Span.text, slice_length hstop]
    omega
  have happly := Script.applyChanges_of_perm (cutScript_fits h (Nat.le_refl _)) htakes hperm
  rw [cutScript_source h (Nat.le_refl _), cutScript_target] at happly
  rwa [Bytes.slice, List.take_length, List.drop_zero] at happly

/-- Cuts that stand one behind another are a chain. -/
theorem chain_of_pairwise {cs : List Cut} {p q : Nat} (hpq : p ≤ q)
    (hcs : cs.Pairwise fun c d => c.span.stop ≤ d.span.start)
    (hin : ∀ c ∈ cs, p ≤ c.span.start ∧ c.span.start < c.span.stop ∧ c.span.stop ≤ q) : Chain q p cs := by
  induction cs generalizing p with
  | nil => exact hpq
  | cons c cs ih =>
    obtain ⟨hbehind, hcs⟩ := List.pairwise_cons.mp hcs
    obtain ⟨⟨hp, hlt, hq⟩, hin⟩ := List.forall_mem_cons.mp hin
    exact ⟨hp, hlt, ih hq hcs fun d hd => ⟨hbehind d hd, (hin d hd).2⟩⟩

/-- Cuts of a chain do not overlap. -/
theorem Chain.apart (h : Chain q p cs) {c d : Cut} (hc : c ∈ cs) (hd : d ∈ cs) (hne : c ≠ d) :
    c.span.stop ≤ d.span.start ∨ d.span.stop ≤ c.span.start := by
  induction cs generalizing p with
  | nil => cases hc
  | cons x cs ih =>
    obtain ⟨hstart, hlt, hrest⟩ := h
    have hbehind := hrest.bounds
    obtain rfl | hc' := List.mem_cons.mp hc
    · obtain rfl | hd' := List.mem_cons.mp hd
      · exact absurd rfl hne
      · exact .inl (hbehind d hd').1
    · obtain rfl | hd' := List.mem_cons.mp hd
      · exact .inr (hbehind c hc').1
      · exact ih hrest hc' hd'

/-- The cuts that lie in a range. -/
def within (ts : List Cut) (span : Span) : List Cut :=
  ts.filter fun c => span.start ≤ c.span.start ∧ c.span.stop ≤ span.stop

section Within

variable {ts : List Cut} {a b : Nat}

theorem mem_within {c : Cut} {span : Span} :
    c ∈ within ts span ↔ c ∈ ts ∧ span.start ≤ c.span.start ∧ c.span.stop ≤ span.stop := by
  simp [within]

theorem within_cons (c : Cut) (span : Span) : within (c :: ts) span =
    if span.start ≤ c.span.start ∧ c.span.stop ≤ span.stop then c :: within ts span else within ts span := by
  simp [within, List.filter_cons]

theorem within_eq_nil {span : Span} (h : ∀ c ∈ ts, span.start ≤ c.span.start → c.span.stop ≤ span.stop → False) :
    within ts span = [] := by
  rw [within, List.filter_eq_nil_iff]
  intro c hc
  simpa using h c hc

theorem chain_within (h : Chain q p ts) (hab : a ≤ b) : Chain b a (within ts ⟨a, b⟩) := by
  induction ts generalizing p a with
  | nil => exact hab
  | cons c ts ih =>
    obtain ⟨hstart, hlt, hrest⟩ := h
    rw [within_cons]
    split
    · next hin =>
      have hsame : within ts ⟨a, b⟩ = within ts ⟨c.span.stop, b⟩ := by
        refine List.filter_congr fun d hd => ?_
        have := hrest.bounds d hd
        dsimp only at hin ⊢
        rw [decide_eq_decide]
        omega
      rw [hsame]
      exact ⟨hin.1, hlt, ih hrest hin.2⟩
    · exact ih hrest hab

/-- A range may be split where no cut lies. -/
theorem within_split {n : Nat} (h : Chain q p ts) (han : a ≤ n) (hnb : n ≤ b)
    (hclear : ∀ c ∈ ts, c.span.stop ≤ n ∨ n ≤ c.span.start) :
    within ts ⟨a, b⟩ = within ts ⟨a, n⟩ ++ within ts ⟨n, b⟩ := by
  induction ts generalizing p with
  | nil => rfl
  | cons c ts ih =>
    obtain ⟨hstart, hlt, hrest⟩ := h
    obtain ⟨hself, hclear⟩ := List.forall_mem_cons.mp hclear
    have hsplit := ih hrest hclear
    simp only [within_cons]
    obtain hleft | hright := hself
    · rw [if_neg (c := n ≤ c.span.start ∧ c.span.stop ≤ b) (by omega), hsplit]
      by_cases hin : a ≤ c.span.start
      · rw [if_pos ⟨hin, hleft.trans hnb⟩, if_pos ⟨hin, hleft⟩, List.cons_append]
      · rw [if_neg (by omega), if_neg (by omega)]
    · have hnil : within ts ⟨a, n⟩ = [] := within_eq_nil fun d hd _ hstop => by
        have := hrest.bounds d hd
        dsimp only at hstop
        omega
      rw [hnil, List.nil_append] at hsplit
      rw [if_neg (c := a ≤ c.span.start ∧ c.span.stop ≤ n) (by omega), hnil, hsplit, List.nil_append]
      by_cases hin : c.span.stop ≤ b
      · rw [if_pos ⟨by omega, hin⟩, if_pos ⟨hright, hin⟩]
      · rw [if_neg (by omega), if_neg (by omega)]

theorem within_all (h : Chain q p ts) : within ts ⟨p, q⟩ = ts := by
  rw [within, List.filter_eq_self]
  intro c hc
  have := h.bounds c hc
  simp only [decide_eq_true_eq]
  omega

end Within

theorem foldlM_of_applyChanges {content result : Bytes} {changes : List Change}
    (h : applyChanges content changes = .ok result) : (sortChanges changes).foldlM splice content = .ok result := by
  obtain ⟨-, -, hfold⟩ := exists_of_bind_eq_ok h
  exact hfold

/-- Changes that stand behind an offset leave alone what is in front of it. -/
theorem foldlM_splice_take {l : List Change} {n : Nat} (hl : ∀ c ∈ l, n ≤ c.position.toNat) {buffer next : Bytes}
    (hlen : n ≤ buffer.length) (h : l.foldlM splice buffer = .ok next) : next.take n = buffer.take n := by
  induction l generalizing buffer with
  | nil =>
    cases h
    rfl
  | cons c l ih =>
    obtain ⟨hc, hl⟩ := List.forall_mem_cons.mp hl
    rw [List.foldlM_cons] at h
    obtain ⟨middle, hstep, h⟩ := exists_of_bind_eq_ok h
    have hsame := splice_take hstep hc hlen
    have hlength := congrArg List.length hsame
    rw [List.length_take_of_le hlen, List.length_take] at hlength
    rw [ih hl (by omega) h, hsame]

theorem splice_cut {buffer next : Bytes} {content : Bytes} {c : Cut} (h : splice buffer (c.change content) = .ok next) :
    buffer.slice c.span.start (c.change content).stop.toNat = c.span.text content ∧
      next = buffer.take c.span.start ++ (c.text ++ buffer.drop (c.change content).stop.toNat) := by
  obtain ⟨hfound, hnext⟩ := splice_eq_ok_iff.mp h
  exact ⟨hfound rfl, hnext.symm⟩

theorem getElem?_slice {s : Bytes} {a b n : Nat} (ha : a ≤ n) (hb : n < b) : (s.slice a b)[n - a]? = s[n]? := by
  rw [Bytes.slice, List.getElem?_drop, Nat.add_sub_cancel' ha, List.getElem?_take, if_pos hb]

theorem Cut.stop_change {content : Bytes} {c : Cut} (hle : c.span.start ≤ c.span.stop) (hstop : c.span.stop ≤ content.length) :
    (c.change content).stop.toNat = c.span.stop := by
  have hlength : (c.span.text content).length = c.span.stop - c.span.start := slice_length hstop
  have hshow : (c.change content).stop = (c.span.start : Int) + (c.span.text content).length := rfl
  rw [hshow, hlength]
  omega

/-- A cut that is still found behind another one in it has not lost the first byte of that. -/
theorem head_of_splice_splice {content buffer next final : Bytes} {last c : Cut} {pre : List Change}
    (hpre : ∀ x ∈ pre, last.span.start ≤ x.position.toNat) (hfold : pre.foldlM splice content = .ok buffer)
    (hlast : splice buffer (last.change content) = .ok next) (hc : splice next (c.change content) = .ok final)
    (hstart : c.span.start ≤ last.span.start) (hin : last.span.start < c.span.stop) (hstop : c.span.stop ≤ content.length)
    (hne : last.text ≠ []) : last.text.head? = content[last.span.start]? := by
  have hsame := congrArg List.length (foldlM_splice_take hpre (by omega) hfold)
  rw [List.length_take, List.length_take] at hsame
  obtain ⟨hfound, -⟩ := splice_cut hc
  obtain ⟨-, rfl⟩ := splice_cut hlast
  rw [Cut.stop_change (by omega) hstop] at hfound
  have hbyte := congrArg (·[last.span.start - c.span.start]?) hfound
  rw [Span.text, getElem?_slice hstart hin, getElem?_slice hstart hin] at hbyte
  obtain ⟨b, rest, htext⟩ := List.exists_cons_of_ne_nil hne
  rw [← hbyte, List.getElem?_append_right (by rw [List.length_take]; omega), List.length_take_of_le (by omega), Nat.sub_self,
    htext]
  rfl

theorem Chain.nodup_changes (content : Bytes) {cs : List Cut} {p q : Nat} (h : Chain q p cs) :
    (cs.map (Cut.change content)).Nodup := by
  induction cs generalizing p with
  | nil => exact List.nodup_nil
  | cons c cs ih =>
    obtain ⟨-, hlt, hrest⟩ := h
    refine List.nodup_cons.mpr ⟨fun hmem => ?_, ih hrest⟩
    obtain ⟨d, hd, heq⟩ := List.mem_map.mp hmem
    have hbehind := (hrest.bounds d hd).1
    have hpos : (d.span.start : Int) = c.span.start := congrArg Change.position heq
    omega

theorem position_le_of_before {a b : Change} (h : a.before b = true) : b.position ≤ a.position := by
  simp only [Change.before, Bool.or_eq_true, Bool.and_eq_true, decide_eq_true_eq, beq_iff_eq] at h
  omega

section Overlap

variable {content result : Bytes} {cs ts : List Cut} {first : List Change}

/-- Of a cut and one in it that is asked for later, one of the later kind is the last before the cut. -/
theorem exists_made_before (hcs : Chain content.length 0 cs) (hfirst : first.Perm (cs.map (Cut.change content)))
    {c t : Cut} (hc : c ∈ cs) (ht : t ∈ ts) (hstart : c.span.start ≤ t.span.start) (hstop : t.span.start < c.span.stop) :
    ∃ pre rest, ∃ u ∈ ts, sortChanges (first ++ ts.map (Cut.change content)) =
        pre ++ u.change content :: c.change content :: rest ∧
      (∀ x ∈ pre, (u.span.start : Int) ≤ x.position) ∧ c.span.start ≤ u.span.start ∧ u.span.start ≤ t.span.start := by
  have hperm := sortChanges_perm (first ++ ts.map (Cut.change content))
  have hsorted := sortChanges_pairwise (first ++ ts.map (Cut.change content))
  have hcmem : c.change content ∈ first := hfirst.mem_iff.mpr (List.mem_map_of_mem hc)
  have hpos (d : Cut) : (d.change content).position = d.span.start := rfl
  -- at one place the change that is asked for later is made first
  have hpair : [t.change content, c.change content].Sublist (sortChanges (first ++ ts.map (Cut.change content))) := by
    refine List.pair_sublist_mergeSort Change.before_trans Change.before_total ?_ ?_
    · have hmode (d : Cut) : (d.change content).mode = .replace := rfl
      simp only [Change.before, Bool.or_eq_true, Bool.and_eq_true, decide_eq_true_eq, beq_iff_eq, hpos, hmode]
      omega
    · have hsub := (List.singleton_sublist.mpr hcmem).append
        (List.singleton_sublist.mpr (List.mem_map_of_mem (f := Cut.change content) ht))
      exact hsub.reverse
  generalize sortChanges (first ++ ts.map (Cut.change content)) = sorted at hperm hsorted hpair ⊢
  obtain ⟨before, behind, rfl, htmem, hcbehind⟩ := List.cons_sublist_iff.mp hpair
  obtain ⟨between, rest, rfl, -⟩ := List.eq_append_cons_of_mem (List.singleton_sublist.mp hcbehind)
  obtain ⟨pre, last, hlast⟩ : ∃ pre last, before ++ between = pre ++ [last] := by
    obtain hnil | ⟨pre, last, hlast⟩ := List.eq_nil_or_concat (before ++ between)
    · rw [(List.append_eq_nil_iff.mp hnil).1] at htmem
      cases htmem
    · exact ⟨pre, last, by simpa using hlast⟩
  rw [← List.append_assoc, hlast] at hperm hsorted ⊢
  have htlast : t.change content ∈ pre ++ [last] := by
    rw [← hlast]
    exact List.mem_append_left _ htmem
  obtain ⟨hfront, -, hcross⟩ := List.pairwise_append.mp hsorted
  obtain ⟨-, -, hpre⟩ := List.pairwise_append.mp hfront
  have hover : (c.span.start : Int) ≤ last.position :=
    position_le_of_before (hcross last (List.mem_append_right _ List.mem_cons_self) _ List.mem_cons_self)
  have hunder : last.position ≤ t.span.start := by
    obtain htpre | hteq := List.mem_append.mp htlast
    · exact position_le_of_before (hpre _ htpre last List.mem_cons_self)
    · rw [← List.mem_singleton.mp hteq]
      exact Int.le_refl _
  have hlastts : last ∈ ts.map (Cut.change content) := by
    have hlastmem : last ∈ first ++ ts.map (Cut.change content) := hperm.mem_iff.mp (by simp)
    obtain hlastfirst | hlastts := List.mem_append.mp hlastmem
    · obtain ⟨d, hd, rfl⟩ := List.mem_map.mp (hfirst.mem_iff.mp hlastfirst)
      rw [hpos] at hover hunder
      by_cases hdc : c = d
      · -- the cut is there twice, but not among the first changes
        have htwice := hperm.count_eq (c.change content)
        have honce := List.nodup_iff_count_le_one.mp (hcs.nodup_changes content) (c.change content)
        rw [← hfirst.count_eq] at honce
        rw [← hdc] at htwice ⊢
        simp only [List.count_append, List.count_cons_self, List.count_nil] at htwice
        exact List.count_pos_iff.mp (by omega)
      · have hapart := hcs.apart hc hd hdc
        have hbounds := hcs.bounds d hd
        omega
    · exact hlastts
  obtain ⟨u, hu, rfl⟩ := List.mem_map.mp hlastts
  rw [hpos] at hover hunder
  exact ⟨pre, rest, u, hu, by simp, fun x hx => position_le_of_before (hpre x hx _ List.mem_cons_self), by omega, by omega⟩

/-- Changes that are asked for after others apply only if they do not begin in what those take away, provided that each
of them changes the first byte of what it replaces. -/
theorem apart_of_applyChanges (hcs : Chain content.length 0 cs) (hfirst : first.Perm (cs.map (Cut.change content)))
    (hts : ∀ t ∈ ts, t.text ≠ [] ∧ t.text.head? ≠ content[t.span.start]?)
    (h : applyChanges content (first ++ ts.map (Cut.change content)) = .ok result) :
    ∀ c ∈ cs, ∀ t ∈ ts, t.span.start < c.span.start ∨ c.span.stop ≤ t.span.start := by
  intro c hc t ht
  by_contra hin
  obtain ⟨pre, rest, u, hu, hsorted, hpre, hstart, hstop⟩ :=
    exists_made_before hcs hfirst hc ht (by omega) (by omega)
  have hfold := foldlM_of_applyChanges h
  rw [hsorted, List.foldlM_append] at hfold
  obtain ⟨buffer, hbuffer, hfold⟩ := exists_of_bind_eq_ok hfold
  rw [List.foldlM_cons] at hfold
  obtain ⟨next, hnext, hfold⟩ := exists_of_bind_eq_ok hfold
  rw [List.foldlM_cons] at hfold
  obtain ⟨final, hfinal, -⟩ := exists_of_bind_eq_ok hfold
  obtain ⟨hne, hbyte⟩ := hts u hu
  have hbounds := hcs.bounds c hc
  refine hbyte (head_of_splice_splice (fun x hx => ?_) hbuffer hnext hfinal hstart (by omega) hbounds.2.2 hne)
  have := hpre x hx
  omega

end Overlap

end Codemod.Edit
