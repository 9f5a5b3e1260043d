import Codemod.Patch.Diff
import Codemod.Proofs.Patch.Compare

namespace Codemod.Patch

def textOf (p : Line → Bool) (ls : List Line) : List Bytes := (ls.filter p).map Line.text

@[simp] theorem textOf_append (p : Line → Bool) (a b : List Line) : textOf p (a ++ b) = textOf p a ++ textOf p b := by
  simp [textOf]

@[simp] theorem length_textOf (p : Line → Bool) (ls : List Line) : (textOf p ls).length = ls.countP p := by
  rw [textOf, List.length_map, List.countP_eq_length_filter]

/-- What a hunk shows of the first text: unchanged and removed lines. -/
def Hunk.beforeText (h : Hunk) : List Bytes := textOf isBefore h.lines

/-- What a hunk shows of the second text: unchanged and added lines. -/
def Hunk.afterText (h : Hunk) : List Bytes := textOf isAfter h.lines

/-- The number of lines in front of a side of a hunk: a side without lines starts at the line
before it, another one at its own first line. -/
def sideOffset (start count : Nat) : Nat := if count = 0 then start else start - 1

def Hunk.beforeOffset (h : Hunk) : Nat := sideOffset h.beforeStart h.beforeCount

def Hunk.afterOffset (h : Hunk) : Nat := sideOffset h.afterStart h.afterCount

/-- Lines stand in a text, so many of them and from a line number on; no lines stand behind the
line of their number. -/
def StandAt (text : List Bytes) (start count : Nat) (shown : List Bytes) : Prop :=
  ∃ front back, text = front ++ (shown ++ back) ∧ shown.length = count ∧
    start = if count = 0 then front.length else front.length + 1

/-- Replace what each hunk shows of the first text by what it shows of the second, in a text whose
first line comes behind `done` others. -/
def applyHunks (done : Nat) : List Hunk → List Bytes → List Bytes
  | [], text => text
  | h :: hunks, text =>
    let skipped := h.beforeOffset - done
    text.take skipped ++ (h.afterText ++
      applyHunks (done + skipped + h.beforeCount) hunks (text.drop (skipped + h.beforeCount)))

/-- The hunk that shows some lines behind others. -/
def hunkOf (front shown : List Line) : Hunk :=
  let side (p : Line → Bool) : Nat × Nat :=
    (if shown.countP p = 0 then front.countP p else front.countP p + 1, shown.countP p)
  ⟨(side isBefore).1, (side isBefore).2, (side isAfter).1, (side isAfter).2, shown⟩

theorem hunkAt_eq (all : List Line) (range : Nat × Nat) : hunkAt all range =
    hunkOf (all.take (range.1 - contextLines)) ((all.take (range.2 + contextLines)).drop (range.1 - contextLines)) := rfl

theorem sideOffset_eq (n count : Nat) : sideOffset (if count = 0 then n else n + 1) count = n := by
  unfold sideOffset
  split <;> omega

@[simp] theorem beforeOffset_hunkOf (front shown : List Line) :
    (hunkOf front shown).beforeOffset = front.countP isBefore := sideOffset_eq ..

@[simp] theorem afterOffset_hunkOf (front shown : List Line) :
    (hunkOf front shown).afterOffset = front.countP isAfter := sideOffset_eq ..

theorem standAt_textOf (p : Line → Bool) (front shown back : List Line) :
    StandAt (textOf p (front ++ (shown ++ back))) (if shown.countP p = 0 then front.countP p else front.countP p + 1)
      (shown.countP p) (textOf p shown) :=
  ⟨textOf p front, textOf p back, by simp, by simp, by simp⟩

/-- Lines behind others, cut into hunks and the unchanged lines between them. There are some
between two hunks. -/
inductive Cut : List Line → List Line → List Hunk → Prop
  | rest {front rest : List Line} (same : ∀ l ∈ rest, l.side = .both) : Cut front rest []
  | hunk {front gap shown rest : List Line} {hunks : List Hunk} (same : ∀ l ∈ gap, l.side = .both)
      (apart : front ≠ [] → gap ≠ []) (shows : shown ≠ []) (next : Cut (front ++ (gap ++ shown)) rest hunks) :
      Cut front (gap ++ (shown ++ rest)) (hunkOf (front ++ gap) shown :: hunks)

section Unchanged

variable {ls : List Line}

theorem isBefore_of_both {l : Line} (h : l.side = .both) : isBefore l = true := by simp [isBefore, h]

theorem isAfter_of_both {l : Line} (h : l.side = .both) : isAfter l = true := by simp [isAfter, h]

theorem textOf_of_both (h : ∀ l ∈ ls, l.side = .both) : textOf isBefore ls = ls.map Line.text ∧
    textOf isAfter ls = ls.map Line.text := by
  rw [textOf, textOf, List.filter_eq_self.mpr fun l hl => isBefore_of_both (h l hl),
    List.filter_eq_self.mpr fun l hl => isAfter_of_both (h l hl)]
  exact ⟨rfl, rfl⟩

theorem countP_of_both (h : ∀ l ∈ ls, l.side = .both) : ls.countP isBefore = ls.length ∧ ls.countP isAfter = ls.length :=
  ⟨List.countP_eq_length.mpr fun l hl => isBefore_of_both (h l hl),
    List.countP_eq_length.mpr fun l hl => isAfter_of_both (h l hl)⟩

end Unchanged

namespace Cut

variable {front rest : List Line} {hunks : List Hunk}

theorem standAt (h : Cut front rest hunks) : ∀ k ∈ hunks,
    StandAt (textOf isBefore (front ++ rest)) k.beforeStart k.beforeCount k.beforeText ∧
      StandAt (textOf isAfter (front ++ rest)) k.afterStart k.afterCount k.afterText := by
  induction h with
  | rest => simp
  | @hunk front gap shown rest hunks _ _ _ _ ih =>
    intro k hk
    rw [← List.append_assoc front gap]
    rcases List.mem_cons.mp hk with rfl | hk
    · exact ⟨standAt_textOf .., standAt_textOf ..⟩
    · have := ih k hk
      simpa only [List.append_assoc] using this

/-- The hunks begin behind an unchanged line, if something comes before them. -/
theorem offset_lt (h : Cut front rest hunks) (hfront : front ≠ []) : ∀ k ∈ hunks,
    front.countP isBefore < k.beforeOffset ∧ front.countP isAfter < k.afterOffset := by
  induction h with
  | rest => simp
  | @hunk front gap shown rest hunks same apart _ _ ih =>
    have hgap : 0 < gap.length := List.length_pos_iff.mpr (apart hfront)
    obtain ⟨hbefore, hafter⟩ := countP_of_both same
    intro k hk
    rcases List.mem_cons.mp hk with rfl | hk
    · simp only [beforeOffset_hunkOf, afterOffset_hunkOf, List.countP_append]
      omega
    · have := ih (by simp [hfront]) k hk
      simp only [List.countP_append] at this
      omega

theorem pairwise (h : Cut front rest hunks) : hunks.Pairwise fun h k =>
    h.beforeOffset + h.beforeCount < k.beforeOffset ∧ h.afterOffset + h.afterCount < k.afterOffset := by
  induction h with
  | rest => exact List.Pairwise.nil
  | @hunk front gap shown rest hunks _ _ shows next ih =>
    refine List.pairwise_cons.mpr ⟨fun k hk => ?_, ih⟩
    have hlt := next.offset_lt (by simp [shows]) k hk
    simp only [beforeOffset_hunkOf, afterOffset_hunkOf]
    simpa [hunkOf, Nat.add_assoc] using hlt

theorem applyHunks_eq (h : Cut front rest hunks) :
    applyHunks (front.countP isBefore) hunks (textOf isBefore rest) = textOf isAfter rest := by
  induction h with
  | rest same =>
    obtain ⟨hbefore, hafter⟩ := textOf_of_both same
    rw [applyHunks, hbefore, hafter]
  | @hunk front gap shown rest hunks same _ _ _ ih =>
    obtain ⟨hbefore, hafter⟩ := textOf_of_both same
    have hskipped : (front ++ gap).countP isBefore - front.countP isBefore = (textOf isBefore gap).length := by
      rw [List.countP_append, length_textOf]
      omega
    have hcount : (hunkOf (front ++ gap) shown).beforeCount = (textOf isBefore shown).length := by
      rw [length_textOf]
      rfl
    have hdone : front.countP isBefore + (textOf isBefore gap).length + (textOf isBefore shown).length =
        (front ++ (gap ++ shown)).countP isBefore := by
      simp [Nat.add_assoc]
    have hdrop : (textOf isBefore gap ++ (textOf isBefore shown ++ textOf isBefore rest)).drop
        ((textOf isBefore gap).length + (textOf isBefore shown).length) = textOf isBefore rest := by
      rw [← List.append_assoc, ← List.length_append, List.drop_left]
    rw [applyHunks, beforeOffset_hunkOf, hskipped, hcount, hdone, textOf_append, textOf_append, hdrop, List.take_left, ih,
      hbefore, ← hafter, textOf_append, textOf_append]
    rfl

theorem both_of_nil (h : Cut front rest []) : ∀ l ∈ rest, l.side = .both := by
  cases h with
  | rest same => exact same

/-- Every changed line is in a hunk. -/
theorem countP_lines (h : Cut front rest hunks) (side : Side) (hside : side ≠ .both) :
    (hunks.flatMap Hunk.lines).countP (·.side = side) = rest.countP (·.side = side) := by
  have hnone {ls : List Line} (same : ∀ l ∈ ls, l.side = .both) : ls.countP (·.side = side) = 0 := by
    rw [List.countP_eq_zero]
    intro l hl
    rw [same l hl]
    simp [hside.symm]
  induction h with
  | rest same => exact (hnone same).symm
  | hunk same _ _ _ ih =>
    rw [List.flatMap_cons, List.countP_append, ih, List.countP_append, List.countP_append, hnone same, Nat.zero_add]
    rfl

end Cut

section Ranges

variable {all : List Line} {gap : Nat}

def Unchanged (all : List Line) (first last : Nat) : Prop :=
  ∀ i l, first ≤ i → i < last → all[i]? = some l → l.side = .both

theorem Unchanged.between {first last a b : Nat} (h : Unchanged all first last) (ha : first ≤ a) (hb : b ≤ last) :
    ∀ l ∈ (all.take b).drop a, l.side = .both := by
  intro l hl
  obtain ⟨i, hi⟩ := List.mem_iff_getElem?.mp hl
  rw [List.getElem?_drop, List.getElem?_take] at hi
  split at hi
  · exact h (a + i) l (by omega) (by omega) hi
  · cases hi

/-- Ranges that hold every changed line from a place on, with more than `gap` lines between them. -/
inductive Ranged (all : List Line) (gap : Nat) : Nat → List (Nat × Nat) → Prop
  | nil {place : Nat} (same : Unchanged all place all.length) : Ranged all gap place []
  | cons {place start stop : Nat} {more : List (Nat × Nat)} (le : place ≤ start) (same : Unchanged all place start)
      (lt : start < stop) (stop_le : stop ≤ all.length) (apart : ∀ r ∈ more.head?, stop + gap < r.1)
      (next : Ranged all gap stop more) : Ranged all gap place ((start, stop) :: more)

theorem Ranged.of_unchanged {place place' : Nat} {ranges : List (Nat × Nat)} (h : Ranged all gap place ranges)
    (hle : place' ≤ place) (hsame : Unchanged all place' place) : Ranged all gap place' ranges := by
  have hjoin {last : Nat} (h : Unchanged all place last) : Unchanged all place' last := by
    intro i l hfirst hlast hi
    rcases Nat.lt_or_ge i place with hlt | hge
    · exact hsame i l hfirst hlt hi
    · exact h i l hge hlast hi
  cases h with
  | nil same => exact .nil (hjoin same)
  | cons le same lt stop_le apart next => exact .cons (Nat.le_trans hle le) (hjoin same) lt stop_le apart next

theorem ranged_changedRanges (front rest : List Line) :
    Ranged (front ++ rest) 0 front.length (changedRanges front.length rest) := by
  induction rest generalizing front with
  | nil =>
    refine .nil fun i l hfirst hlast _ => ?_
    rw [List.append_nil] at hlast
    omega
  | cons l rest ih =>
    have hlater : Ranged (front ++ l :: rest) 0 (front.length + 1) (changedRanges (front.length + 1) rest) := by
      simpa using ih (front ++ [l])
    have hhere : (front ++ l :: rest)[front.length]? = some l := by simp
    have hlt : front.length + 1 ≤ (front ++ l :: rest).length := by simp
    have hnone : Unchanged (front ++ l :: rest) front.length front.length := by
      intro i _ hfirst hlast
      omega
    rw [changedRanges]
    split
    · next hboth =>
      refine hlater.of_unchanged (Nat.le_succ _) fun i l' hfirst hlast hi => ?_
      obtain rfl : i = front.length := by omega
      rw [hhere] at hi
      rwa [← Option.some.inj hi]
    · split
      · next start stop more heq =>
        rw [heq] at hlater
        cases hlater with
        | cons le same lt stop_le apart next =>
          split
          · next hstart => exact .cons (Nat.le_refl _) hnone (by omega) stop_le apart next
          · next hstart =>
            rw [heq]
            refine .cons (Nat.le_refl _) hnone (Nat.lt_succ_self _) hlt ?_ (.cons le same lt stop_le apart next)
            simp only [List.head?_cons, Option.mem_some_iff, forall_eq']
            omega
      · next heq =>
        rw [heq] at hlater
        exact .cons (Nat.le_refl _) hnone (Nat.lt_succ_self _) hlt (by simp) hlater

theorem Ranged.joinRanges {place : Nat} {ranges : List (Nat × Nat)} (h : Ranged all gap place ranges) :
    Ranged all (2 * contextLines) place (joinRanges ranges) := by
  induction h with
  | nil same => exact .nil same
  | cons le same lt stop_le _ _ ih =>
    rw [Patch.joinRanges]
    split
    · next start' stop' more heq =>
      rw [heq] at ih
      cases ih with
      | cons le' same' lt' stop_le' apart' next' =>
        split
        · exact .cons le same (by omega) stop_le' apart' next'
        · refine .cons le same lt stop_le ?_ (.cons le' same' lt' stop_le' apart' next')
          simp only [List.head?_cons, Option.mem_some_iff, forall_eq']
          omega
    · next heq =>
      rw [heq] at ih
      exact .cons le same lt stop_le (by simp) ih

/-- The hunks around ranges cut the lines behind those seen, if their contexts do not reach them. -/
theorem Ranged.cut {place seen : Nat} {ranges : List (Nat × Nat)} (h : Ranged all (2 * contextLines) place ranges)
    (hplace : place ≤ seen) (hfree : ∀ r ∈ ranges.head?, seen = 0 ∨ seen + contextLines < r.1) :
    Cut (all.take seen) (all.drop seen) (ranges.map (hunkAt all)) := by
  induction h generalizing seen with
  | nil same =>
    have hrest := same.between hplace (Nat.le_refl _)
    rw [List.take_length] at hrest
    exact .rest hrest
  | @cons place start stop more le same lt stop_le apart next ih =>
    have hstart : seen = 0 ∨ seen + contextLines < start := hfree _ rfl
    -- the next range lies more than two contexts away, so there is a line between its hunk and this one
    have hcut : Cut (all.take (stop + contextLines)) (all.drop (stop + contextLines)) (more.map (hunkAt all)) := by
      refine ih (Nat.le_add_right ..) fun r hr => Or.inr ?_
      have := apart r hr
      omega
    have hgap : all.take seen ++ (all.take (start - contextLines)).drop seen = all.take (start - contextLines) :=
      take_append_between all (by omega)
    have hshown : all.take (start - contextLines) ++ (all.take (stop + contextLines)).drop (start - contextLines) =
        all.take (stop + contextLines) := take_append_between all (by omega)
    rw [← hshown, ← hgap, List.append_assoc] at hcut
    have hhunk := Cut.hunk (same.between hplace (Nat.sub_le ..)) ?_ ?_ hcut
    · rw [hgap, between_append_drop all (by omega), between_append_drop all (by omega)] at hhunk
      rwa [List.map_cons, hunkAt_eq]
    · intro hne
      rw [← List.length_pos_iff, List.length_drop, List.length_take]
      have : seen ≠ 0 := fun h => hne (by rw [h]; rfl)
      omega
    · rw [← List.length_pos_iff, List.length_drop, List.length_take]
      omega

theorem cut_hunks (all : List Line) : Cut [] all ((joinRanges (changedRanges 0 all)).map (hunkAt all)) :=
  (ranged_changedRanges [] all).joinRanges.cut (Nat.le_refl _) fun _ _ => Or.inl rfl

end Ranges

end Codemod.Patch
