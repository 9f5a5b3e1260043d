import Codemod.Proofs.Release12.Plan

namespace Codemod.Release12

open Edit Markup

/-- A closed comment with a line break behind it. -/
structure IsNote (w : Bytes) : Prop where
  head : w.take 4 = "<!--"
  last : w.getLast? = some 10
  length : commentLength 0 true (w.drop 4) + 5 = w.length

def noteGaps (w : Bytes) : List Gap := [.inert w.dropLast, .text [10]]

theorem IsNote.dropLast_append {w : Bytes} (h : IsNote w) : w.dropLast ++ [10] = w := by
  obtain ⟨front, rfl⟩ := List.getLast?_eq_some_iff.mp h.last
  simp

theorem IsNote.gapText {w : Bytes} (h : IsNote w) : gapText (noteGaps w) = w := by
  simpa [Markup.gapText, noteGaps, Gap.piece, Piece.raw] using h.dropLast_append

theorem IsNote.split {w : Bytes} (h : IsNote w) : w = bytes "<!--" ++ w.drop 4 := by
  rw [← h.head]
  exact (List.take_append_drop 4 w).symm

theorem IsNote.inert {w : Bytes} (h : IsNote w) : Inert w.dropLast := by
  have hlen := h.length
  have hbody : (w.drop 4).dropLast ++ [10] = w.drop 4 := by
    have hlast : (w.drop 4).getLast? = some 10 := by
      rw [List.getLast?_drop, if_neg (by omega)]
      exact h.last
    obtain ⟨front, hfront⟩ := List.getLast?_eq_some_iff.mp hlast
    rw [hfront]
    simp
  have hdrop : w.dropLast = bytes "<!--" ++ (w.drop 4).dropLast := by
    have hne : w.drop 4 ≠ [] := by
      rw [← hbody]
      simp
    conv_lhs => rw [h.split]
    exact List.dropLast_append_of_ne_nil hne
  rw [hdrop]
  refine inert_comment (v := [10]) (by simp) ?_
  rw [hbody, List.length_dropLast, List.length_drop]
  omega

theorem precedes_append {xs ys : List Piece} (hx : Precedes xs) (hy : Precedes ys) : Precedes (xs ++ ys) := by
  constructor
  · intro qs hqs
    rw [List.append_assoc]
    exact hx.leads _ (hy.leads _ hqs)
  · intro qs hqs hread
    rw [List.append_assoc]
    exact hx.reads _ (hy.leads _ hqs) (hy.reads _ hqs hread)

theorem precedes_break : Precedes [.text [10]] :=
  ⟨fun _ _ => Or.inr rfl, fun _ hqs hread => .text rfl hqs hread⟩

theorem IsNote.precedes {w : Bytes} (h : IsNote w) : Precedes ((noteGaps w).map Gap.piece) := by
  have hinert : Precedes [.inert w.dropLast] := by
    refine ⟨fun qs _ => Or.inl ?_, fun qs _ hread => .inert h.inert hread⟩
    have hlen : 5 ≤ w.length := by
      have := h.length
      omega
    rw [render_append, render_cons, render_nil]
    have hhead : w.dropLast.head? = some 60 := by
      rw [List.dropLast_eq_take, List.head?_take, if_neg (by omega), h.split]
      rfl
    cases hw : w.dropLast with
    | nil => simp [hw] at hhead
    | cons b r => simpa [Piece.raw, hw] using hhead
  exact precedes_append hinert precedes_break

theorem isNote_reviewComment : IsNote reviewComment := by
  have h : reviewComment.take 4 = bytes "<!--" ∧ reviewComment.getLast? = some 10 ∧
      commentLength 0 true (reviewComment.drop 4) + 5 = reviewComment.length := by
    unfold reviewComment
    repeat rw [bytes_ofList]
    decide +kernel
  exact ⟨h.1, h.2.1, h.2.2⟩

theorem changes_front (x : Spot) (gaps : List Gap) :
    ((Patch.front gaps).head x.pos x.tag x.selfClosing).changes ++ ((Patch.front gaps).tail x.closePos x.close).changes =
      [.insert x.pos (gapText gaps)] := by
  cases x.close <;> simp [Patch.head, Patch.tail]

/-- The component gets the review comment. -/
def needsReview (f : Family) (d : Document) (place : Place) : Bool :=
  place.isOutermost (Element.named [bytes f.component]) && !precededBy d place.element.startTag.start reviewComment

/-- The review comments as a plan. -/
def reviewPlan (f : Family) (d : Document) (touched : Bool) (place : Place) : Patch :=
  if touched && needsReview f d place then .front (noteGaps reviewComment) else .keep

theorem addReviewComments_eq (f : Family) (d : Document) (touched : Bool) :
    addReviewComments f d touched = d.places.flatMap fun place =>
      if touched && needsReview f d place then [.insert place.element.startTag.start reviewComment] else [] := by
  cases touched with
  | false => simp [addReviewComments]
  | true =>
    simp only [addReviewComments, if_true, Document.outermost_eq, Bool.true_and]
    induction d.places with
    | nil => rfl
    | cons place rest ih =>
      cases h1 : place.isOutermost (Element.named [bytes f.component]) <;>
        cases h2 : precededBy d place.element.startTag.start reviewComment <;>
        simp [needsReview, h1, h2, ih]

variable {d : Document} {s : Source}

theorem addReviewComments_carries (hs : Reading d s) (f : Family) (touched : Bool) :
    Carries d s reviewComment (reviewPlan f d touched) (addReviewComments f d touched) := by
  refine hs.carries (fun place => if touched && needsReview f d place then
    [.insert place.element.startTag.start reviewComment] else []) ?_ ?_ ?_ ?_
  · intro x _
    unfold reviewPlan
    split
    · exact isNote_reviewComment.gapText
    · trivial
  · intro x _
    unfold reviewPlan
    split
    · rw [changes_front, isNote_reviewComment.gapText]
      rfl
    · exact changes_keep x
  · rw [addReviewComments_eq]
  · refine List.Pairwise.imp_of_mem (fun {a b} _ hb _ _ => ?_) (List.pairwise_of_forall (R := fun _ _ => True) (by simp))
    rw [addReviewComments_eq] at hb
    obtain ⟨place, -, hb⟩ := List.mem_flatMap.mp hb
    split at hb
    · rw [List.mem_singleton.mp hb]
      simp [Change.inserts, Change.insert]
    · simp at hb

/-- The names of a family have a dash, and those of its headers and panels are read as names and words to their
ends. -/
theorem names_of_family {f : Family} (hf : f ∈ families) :
    45 ∈ bytes f.component ∧ (∀ name ∈ f.tags.map bytes, 45 ∈ name) ∧
    ∀ tag ∈ [f.headerTag, f.panelTag], 45 ∈ bytes tag ∧ (bytes tag).head?.any Bytes.isLetter = true ∧
      ∀ b ∈ bytes tag, isNameEnd b = false ∧ isKeyEnd b = false ∧ isQuote b = false ∧ b ≠ 60 := by
  have hall : ∀ f ∈ families, 45 ∈ bytes f.component ∧ (∀ name ∈ f.tags.map bytes, 45 ∈ name) ∧
      ∀ tag ∈ [f.headerTag, f.panelTag], 45 ∈ bytes tag ∧ (bytes tag).head?.any Bytes.isLetter = true ∧
        ∀ b ∈ bytes tag, isNameEnd b = false ∧ isKeyEnd b = false ∧ isQuote b = false ∧ b ≠ 60 := by decide +kernel
  exact hall f hf

theorem component_ordinary {f : Family} (hf : f ∈ families) : Ordinary f.component :=
  .of_dash (names_of_family hf).1

theorem reviewPlan_sound {f : Family} (hf : f ∈ families) (touched : Bool) (x : Spot) :
    (reviewPlan f d touched x.place).Sound x := by
  unfold reviewPlan
  split
  · next h =>
    simp only [needsReview, Place.isOutermost, Bool.and_eq_true] at h
    have hname : x.name = f.component := List.mem_singleton.mp (name_of_named h.2.1.1)
    exact ⟨hname ▸ component_ordinary hf, isNote_reviewComment.precedes⟩
  · trivial

end Codemod.Release12
