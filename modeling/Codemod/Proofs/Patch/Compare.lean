import Codemod.Patch.LineDiff
import Mathlib.Data.List.Basic
import Mathlib.Data.List.TakeDrop

namespace Codemod.Patch

variable {α : Type}

/-- The items of all chunks but those of one side, in order: without what was added they are the
first text, without what was removed the second. -/
def without (left : Side) (chunks : List (Chunk α)) : List α :=
  chunks.flatMap fun c => if c.side = left then [] else c.items

/-- Chunks that hold both texts of a comparison. -/
structure Splits (chunks : List (Chunk α)) (a b : List α) : Prop where
  first : without .added chunks = a
  second : without .removed chunks = b

@[simp] theorem without_nil (left : Side) : without left ([] : List (Chunk α)) = [] := rfl

@[simp] theorem without_cons (left : Side) (c : Chunk α) (chunks : List (Chunk α)) :
    without left (c :: chunks) = (if c.side = left then [] else c.items) ++ without left chunks := rfl

@[simp] theorem without_append (left : Side) (a b : List (Chunk α)) :
    without left (a ++ b) = without left a ++ without left b := List.flatMap_append

section Common

variable [DecidableEq α]

theorem take_commonHead (s t : List α) : s.take (commonHead s t) = t.take (commonHead s t) := by
  induction s generalizing t with
  | nil => cases t <;> rfl
  | cons a s ih =>
    cases t with
    | nil => rfl
    | cons b t =>
      rw [commonHead]
      split
      · next h => rw [Nat.add_comm, List.take_succ_cons, List.take_succ_cons, h, ih]
      · rfl

theorem commonHead_le (s t : List α) : commonHead s t ≤ s.length ∧ commonHead s t ≤ t.length := by
  induction s generalizing t with
  | nil => cases t <;> simp [commonHead]
  | cons a s ih =>
    cases t with
    | nil => simp [commonHead]
    | cons b t =>
      have := ih t
      rw [commonHead]
      split
      · simp only [List.length_cons]
        omega
      · simp

theorem drop_commonTail (s t : List α) :
    s.drop (s.length - commonTail s t) = t.drop (t.length - commonTail s t) := by
  have h := take_commonHead s.reverse t.reverse
  rw [List.take_reverse, List.take_reverse] at h
  exact List.reverse_injective h

theorem commonTail_le (s t : List α) : commonTail s t ≤ s.length ∧ commonTail s t ≤ t.length := by
  have h := commonHead_le s.reverse t.reverse
  rwa [List.length_reverse, List.length_reverse] at h

/-- Every occurrence is one. -/
theorem mem_occurrences {part : List α} {start i : Nat} {s : List α} (h : i ∈ occurrences part start s) :
    ∃ pre post, s = pre ++ (part ++ post) ∧ i = start + pre.length := by
  induction s generalizing start with
  | nil =>
    rw [occurrences] at h
    split at h
    · next hempty =>
      rw [List.mem_singleton.mp h, List.isEmpty_iff.mp hempty]
      exact ⟨[], [], rfl, rfl⟩
    · cases h
  | cons a s ih =>
    have hlater : i ∈ occurrences part (start + 1) s →
        ∃ pre post, a :: s = pre ++ (part ++ post) ∧ i = start + pre.length := by
      intro h
      obtain ⟨pre, post, hs, hi⟩ := ih h
      refine ⟨a :: pre, post, by rw [hs]; rfl, ?_⟩
      rw [hi, List.length_cons]
      omega
    rw [occurrences] at h
    split at h
    · next hpre =>
      rcases List.mem_cons.mp h with rfl | h
      · obtain ⟨post, hpost⟩ := List.isPrefixOf_iff_prefix.mp hpre
        exact ⟨[], post, hpost.symm, rfl⟩
      · exact hlater h
    · exact hlater h

end Common

section Merge

/-- What a run of edits has of one text. -/
def EditRun.without (left : Side) (run : EditRun α) : List α := if left = .added then run.removed else run.added

/-- Without edits of a kind there are no items of it. -/
structure EditRun.Counted (run : EditRun α) : Prop where
  removed : run.removals = 0 → run.removed = []
  added : run.additions = 0 → run.added = []

theorem without_extendBoth {left : Side} (hleft : left ≠ .both) (done : List (Chunk α)) (items : List α) :
    without left (extendBoth done items).reverse = without left done.reverse ++ items := by
  unfold extendBoth
  split
  · simp [hleft.symm]
  · simp [hleft.symm]

variable [DecidableEq α]

/-- Closing a run of edits writes it and the common stretch behind it. -/
theorem without_close {left : Side} (hleft : left ≠ .both) {run : EditRun α} (hrun : run.Counted)
    (done : List (Chunk α)) (common : List α) :
    without left (run.close done common).reverse = without left done.reverse ++ (run.without left ++ common) := by
  obtain ⟨removed, added, removals, additions⟩ := run
  obtain ⟨hremoved, hadded⟩ := hrun
  dsimp only at hremoved hadded
  unfold EditRun.close
  dsimp only
  split
  · next h =>
    obtain rfl := hremoved (by omega)
    obtain rfl := hadded (by omega)
    simp [without_extendBoth hleft, EditRun.without]
  · split
    · next h =>
      obtain rfl := hremoved h
      cases left <;> simp [EditRun.without] at hleft ⊢
    · split
      · next h =>
        obtain rfl := hadded h
        cases left <;> simp [EditRun.without] at hleft ⊢
      · have hhead := take_commonHead added removed
        generalize commonHead added removed = head at hhead
        have htail := drop_commonTail (added.drop head) (removed.drop head)
        generalize commonTail (added.drop head) (removed.drop head) = tail at htail
        have hdone : without left (if head = 0 then done else extendBoth done (added.take head)).reverse =
            without left done.reverse ++ added.take head := by
          split
          · next h => simp [h]
          · exact without_extendBoth hleft ..
        have hadd : added.take head ++ ((added.drop head).take ((added.drop head).length - tail) ++
            (added.drop head).drop ((added.drop head).length - tail)) = added := by
          rw [List.take_append_drop, List.take_append_drop]
        have hremove : added.take head ++ ((removed.drop head).take ((removed.drop head).length - tail) ++
            (added.drop head).drop ((added.drop head).length - tail)) = removed := by
          rw [hhead, htail, List.take_append_drop, List.take_append_drop]
        cases left with
        | both => exact absurd rfl hleft
        | added =>
          simp only [List.reverse_cons, without_append, hdone, without_cons, without_nil, EditRun.without]
          simp only [reduceCtorEq, if_true, if_false, List.append_nil]
          rw [← List.append_assoc _ _ common]
          conv_rhs => rw [← hremove]
          simp only [List.append_assoc]
        | removed =>
          simp only [List.reverse_cons, without_append, hdone, without_cons, without_nil, EditRun.without]
          simp only [reduceCtorEq, if_true, if_false, List.append_nil]
          conv_rhs => rw [← hadd]
          simp only [List.append_assoc]

theorem without_mergeRuns {left : Side} (hleft : left ≠ .both) (done : List (Chunk α)) {run : EditRun α}
    (hrun : run.Counted) (chunks : List (Chunk α)) :
    without left (mergeRuns done run chunks) = without left done.reverse ++ (run.without left ++ without left chunks) := by
  induction chunks generalizing done run with
  | nil =>
    have hclose := without_close hleft hrun done []
    rw [mergeRuns]
    split
    · next h =>
      rw [h] at hclose
      simpa using hclose
    · exact hclose
  | cons c chunks ih =>
    obtain ⟨side, items⟩ := c
    cases side with
    | both =>
      have hempty : EditRun.Counted (EditRun.empty : EditRun α) := ⟨fun _ => rfl, fun _ => rfl⟩
      rw [mergeRuns, ih _ hempty, without_close hleft hrun]
      cases left <;> simp [EditRun.without, EditRun.empty] at hleft ⊢
    | added =>
      have hnext : EditRun.Counted { run with added := run.added ++ items, additions := run.additions + 1 } :=
        ⟨hrun.removed, fun h => absurd h (Nat.succ_ne_zero _)⟩
      rw [mergeRuns, ih done hnext]
      cases left <;> simp [EditRun.without] at hleft ⊢
    | removed =>
      have hnext : EditRun.Counted { run with removed := run.removed ++ items, removals := run.removals + 1 } :=
        ⟨fun h => absurd h (Nat.succ_ne_zero _), hrun.added⟩
      rw [mergeRuns, ih done hnext]
      cases left <;> simp [EditRun.without] at hleft ⊢

/-- Shifting an edit over a common stretch keeps both texts. -/
theorem without_shiftEdits {left : Side} (hleft : left ≠ .both) (chunks : List (Chunk α)) :
    without left (shiftEdits chunks).1 = without left chunks := by
  fun_induction shiftEdits chunks with
  | case1 prev edit next rest h kept shifted ih =>
    obtain ⟨hprev, hnext, hsuffix⟩ := h
    obtain ⟨front, hfront⟩ := List.isSuffixOf_iff_suffix.mp hsuffix
    have hkept : kept = front := by
      rw [show kept = edit.items.take (edit.items.length - prev.items.length) from rfl, ← hfront, List.length_append,
        Nat.add_sub_cancel, List.take_left]
    simp only [without_cons] at ih ⊢
    rw [ih]
    rw [hkept, hprev, hnext, ← hfront]
    by_cases hedit : edit.side = left <;> simp [hedit, hleft.symm]
  | case2 prev edit next rest _ h kept shifted ih =>
    obtain ⟨hprev, hnext, hprefix⟩ := h
    obtain ⟨back, hback⟩ := List.isPrefixOf_iff_prefix.mp hprefix
    have hkept : kept = back := by
      rw [show kept = edit.items.drop next.items.length from rfl, ← hback, List.drop_left]
    simp only [without_cons] at ih ⊢
    rw [ih]
    rw [hkept, hprev, hnext, ← hback]
    by_cases hedit : edit.side = left <;> simp [hedit, hleft.symm]
  | case3 prev edit next rest _ _ shifted ih => rw [without_cons, ih, without_cons left prev]
  | case4 => rfl

theorem without_normalize {left : Side} (hleft : left ≠ .both) (chunks : List (Chunk α)) :
    without left (normalize chunks) = without left chunks := by
  have hstep (chunks : List (Chunk α)) : without left (shiftEdits (mergeRuns [] .empty chunks)).1 = without left chunks := by
    rw [without_shiftEdits hleft, without_mergeRuns hleft [] ⟨fun _ => rfl, fun _ => rfl⟩]
    simp [EditRun.without, EditRun.empty]
  fun_induction normalize chunks with
  | case1 chunks shifted _ _ ih => rw [ih, hstep]
  | case2 chunks => exact hstep chunks
  | case3 chunks => exact hstep chunks

theorem Splits.normalize {chunks : List (Chunk α)} {a b : List α} (h : Splits chunks a b) :
    Splits (normalize chunks) a b :=
  ⟨(without_normalize (by simp) chunks).trans h.first, (without_normalize (by simp) chunks).trans h.second⟩

end Merge

section Halves

/-- The common middle lies in both texts, between what is named of them. -/
structure HalfMatch.Joins (m : HalfMatch α) (a b : List α) : Prop where
  first : a = m.firstHead ++ (m.common ++ m.firstTail)
  second : b = m.secondHead ++ (m.common ++ m.secondTail)

theorem HalfMatch.Joins.swap {m : HalfMatch α} {a b : List α} (h : m.Joins a b) : m.swap.Joins b a :=
  ⟨h.second, h.first⟩

theorem of_longer? {second third : Option (HalfMatch α)} {m : HalfMatch α}
    (h : HalfMatch.longer? second third = some m) : second = some m ∨ third = some m := by
  unfold HalfMatch.longer? at h
  split at h
  · split at h
    · exact Or.inl h
    · exact Or.inr h
  · exact Or.inl h
  · exact Or.inr h

theorem take_append_between (s : List α) {i j : Nat} (h : i ≤ j) : s.take i ++ (s.take j).drop i = s.take j := by
  conv_rhs => rw [← List.take_append_drop i (s.take j)]
  rw [List.take_take, Nat.min_eq_left h]

theorem between_append_drop (s : List α) {i j : Nat} (h : i ≤ j) : (s.take j).drop i ++ s.drop j = s.drop i := by
  obtain ⟨n, rfl⟩ := Nat.exists_eq_add_of_le h
  rw [List.drop_take, Nat.add_sub_cancel_left, ← List.drop_drop, List.take_append_drop]

/-- A text cut around a stretch that lies on both sides of a place. -/
theorem cut_around (s : List α) {j before : Nat} (after : Nat) :
    s = s.take (j - before) ++ (((s.take j).drop (j - before) ++ (s.drop j).take after) ++ s.drop (j + after)) := by
  have hback : (s.drop j).take after ++ s.drop (j + after) = s.drop j := by
    rw [← List.drop_drop, List.take_append_drop]
  rw [List.append_assoc, hback, between_append_drop s (Nat.sub_le ..), List.take_append_drop]

theorem take_around {s : List α} {j before : Nat} (after : Nat) (hj : j ≤ s.length) (hbefore : before ≤ j) :
    (s.drop (j - before)).take (before + after) = (s.take j).drop (j - before) ++ (s.drop j).take after := by
  have hsplit : s.drop (j - before) = (s.take j).drop (j - before) ++ s.drop j := by
    conv_lhs => rw [← List.take_append_drop j s]
    rw [List.drop_append_of_le_length (by rw [List.length_take_of_le hj]; omega)]
  have hlen : ((s.take j).drop (j - before)).length = before := by
    rw [List.length_drop, List.length_take_of_le hj]
    omega
  rw [hsplit, List.take_append, hlen, List.take_of_length_le (by omega), Nat.add_sub_cancel_left]

/-- Two texts agree around a place in each of them: so many items in front of it and behind. -/
structure Agree (long short : List α) (place : Nat) (m : Nat × Nat × Nat) : Prop where
  le : m.1 ≤ short.length
  front : m.2.1 ≤ place ∧ m.2.1 ≤ m.1
  before : (long.take place).drop (place - m.2.1) = (short.take m.1).drop (m.1 - m.2.1)
  after : (long.drop place).take m.2.2 = (short.drop m.1).take m.2.2

variable [DecidableEq α]

/-- The longer one of a match and the match around another place. -/
def longerMatch (long short : List α) (place : Nat) (best : Nat × Nat × Nat) (j : Nat) : Nat × Nat × Nat :=
  let after := commonHead (long.drop place) (short.drop j)
  let before := commonTail (long.take place) (short.take j)
  if best.2.1 + best.2.2 < before + after then (j, before, after) else best

theorem seedMatch?_eq (long short : List α) (place : Nat) : seedMatch? long short place =
    let m := (occurrences ((long.drop place).take (long.length / 4)) 0 short).foldl (longerMatch long short place) (0, 0, 0)
    if (m.2.1 + m.2.2) * 2 < long.length then none
    else some ⟨long.take (place - m.2.1), long.drop (place + m.2.2), short.take (m.1 - m.2.1), short.drop (m.1 + m.2.2),
      (short.drop (m.1 - m.2.1)).take (m.2.1 + m.2.2)⟩ := rfl

theorem Agree.longerMatch {long short : List α} {place : Nat} (hplace : place ≤ long.length) {best : Nat × Nat × Nat}
    (hbest : Agree long short place best) {j : Nat} (hj : j ≤ short.length) :
    Agree long short place (longerMatch long short place best j) := by
  have hle := commonTail_le (long.take place) (short.take j)
  have hdrop := drop_commonTail (long.take place) (short.take j)
  rw [List.length_take_of_le hplace, List.length_take_of_le hj] at hle hdrop
  unfold Patch.longerMatch
  dsimp only
  split
  · exact ⟨hj, hle, hdrop, take_commonHead _ _⟩
  · exact hbest

theorem Agree.foldl {long short : List α} {place : Nat} (hplace : place ≤ long.length) {places : List Nat}
    (hplaces : ∀ j ∈ places, j ≤ short.length) {best : Nat × Nat × Nat} (hbest : Agree long short place best) :
    Agree long short place (places.foldl (Patch.longerMatch long short place) best) := by
  induction places generalizing best with
  | nil => exact hbest
  | cons j places ih =>
    exact ih (fun k hk => hplaces k (List.mem_cons_of_mem j hk))
      (hbest.longerMatch hplace (hplaces j (List.mem_cons_self ..)))

theorem joins_of_seedMatch? {long short : List α} {place : Nat} (hplace : place ≤ long.length) {m : HalfMatch α}
    (h : seedMatch? long short place = some m) : m.Joins long short := by
  have hplaces : ∀ j ∈ occurrences ((long.drop place).take (long.length / 4)) 0 short, j ≤ short.length := by
    intro j hj
    obtain ⟨pre, post, hs, hj⟩ := mem_occurrences hj
    rw [hs, hj]
    simp
  have hstart : Agree long short place (0, 0, 0) := ⟨Nat.zero_le _, ⟨Nat.zero_le _, Nat.zero_le _⟩, by simp, by simp⟩
  obtain ⟨hle, hfront, hbefore, hafter⟩ := hstart.foldl hplace hplaces
  rw [seedMatch?_eq] at h
  dsimp only at h
  split at h
  · cases h
  · obtain rfl := Option.some.inj h
    refine ⟨?_, ?_⟩
    · dsimp only
      rw [take_around _ hle hfront.2, ← hbefore, ← hafter]
      exact cut_around long _
    · dsimp only
      rw [take_around _ hle hfront.2]
      exact cut_around short _

theorem joins_of_halfMatch? {a b : List α} {m : HalfMatch α} (h : halfMatch? a b = some m) : m.Joins a b := by
  have hseeds {long short : List α} (hlen : 4 ≤ long.length) {m : HalfMatch α}
      (h : seedMatch? long short ((long.length + 3) / 4) = some m ∨
        seedMatch? long short ((long.length + 1) / 2) = some m) : m.Joins long short := by
    rcases h with h | h
    · exact joins_of_seedMatch? (by omega) h
    · exact joins_of_seedMatch? (by omega) h
  unfold halfMatch? at h
  by_cases hlt : b.length < a.length
  · simp only [hlt, if_true] at h
    split at h
    · cases h
    · next hlen => exact hseeds (by omega) (of_longer? h)
  · simp only [hlt, if_false] at h
    split at h
    · cases h
    · next hlen =>
      obtain ⟨m', h', rfl⟩ := Option.map_eq_some_iff.mp h
      exact (hseeds (by omega) (of_longer? h')).swap

end Halves

section Compare

/-- A step of a comparison loses nothing of the texts. -/
def Step.Covers (a b : List α) : Step α → Prop
  | .chunks done => Splits done a b
  | .parts firstHead secondHead common firstTail secondTail =>
    a = firstHead ++ (common ++ firstTail) ∧ b = secondHead ++ (common ++ secondTail)

theorem splits_replace (a b : List α) : Splits [⟨.removed, a⟩, ⟨.added, b⟩] a b := ⟨by simp, by simp⟩

/-- A common stretch, which is left out where it is empty. -/
theorem splits_both {p : Prop} [Decidable p] {s : List α} (h : p → s = []) :
    Splits (if p then [] else [⟨.both, s⟩]) s s := by
  split
  · next hp => rw [h hp]; exact ⟨rfl, rfl⟩
  · exact ⟨by simp, by simp⟩

theorem Splits.append {c d : List (Chunk α)} {a b a' b' : List α} (hc : Splits c a b) (hd : Splits d a' b') :
    Splits (c ++ d) (a ++ a') (b ++ b') :=
  ⟨by rw [without_append, hc.first, hd.first], by rw [without_append, hc.second, hd.second]⟩

variable [DecidableEq α]

theorem compareStep_covers (a b : List α) : (compareStep a b).Covers a b := by
  have hordered : ∀ t, (if b.length < a.length then (a, b, Side.removed) else (b, a, .added)) = t →
      t = (a, b, .removed) ∨ t = (b, a, .added) := by
    rintro t rfl
    split
    · exact Or.inl rfl
    · exact Or.inr rfl
  unfold compareStep
  split
  · next ha => exact ⟨by simp [List.isEmpty_iff.mp ha], by simp⟩
  split
  · next hb => exact ⟨by simp, by simp [List.isEmpty_iff.mp hb]⟩
  generalize ht : (if b.length < a.length then (a, b, Side.removed) else (b, a, .added)) = t
  have hsides := hordered t ht
  obtain ⟨long, short, side⟩ := t
  dsimp only
  split
  · next i more hoccurs =>
    obtain ⟨pre, post, hlong, hi⟩ := mem_occurrences (hoccurs ▸ List.mem_cons_self .. : i ∈ occurrences short 0 long)
    rw [Nat.zero_add] at hi
    subst hi hlong
    rcases hsides with h | h <;> cases h <;> exact ⟨by simp, by simp⟩
  split
  · exact splits_replace a b
  split
  · next hmatch =>
    have hjoins := joins_of_halfMatch? hmatch
    exact ⟨hjoins.first, hjoins.second⟩
  split
  · exact ⟨(List.take_append_drop ..).symm, (List.take_append_drop ..).symm⟩
  · exact splits_replace a b

theorem compare_splits (a b : List α) : Splits (compare a b) a b := by
  fun_induction compare a b with
  | case1 b hb => rw [List.isEmpty_iff.mp hb]; exact ⟨rfl, rfl⟩
  | case2 b => exact ⟨by simp, by simp⟩
  | case3 a b _ head a₁ b₁ tail a₂ b₂ middle front back ih1 ih2 =>
    have hmiddle : Splits middle a₂ b₂ := by
      have hstep := compareStep_covers a₂ b₂
      unfold middle
      split
      · next h => rwa [h] at hstep
      · next h =>
        rw [h] at hstep
        split
        · next hsize =>
          rw [hstep.1, hstep.2, ← List.append_assoc, ← List.append_assoc]
          exact ((ih1 _ _ _ _ hsize).append (splits_both List.isEmpty_iff.mp)).append (ih2 _ _ _ _ hsize)
        · exact splits_replace a₂ b₂
    have hfront : Splits front (a.take head) (a.take head) := splits_both fun h => by rw [h]; rfl
    have hback : Splits back (a₁.drop (a₁.length - tail)) (a₁.drop (a₁.length - tail)) :=
      splits_both fun h => by rw [h]; simp
    have h := (hfront.append hmiddle).append hback
    have hfirst : a.take head ++ a₂ ++ a₁.drop (a₁.length - tail) = a := by
      rw [List.append_assoc, List.take_append_drop, List.take_append_drop]
    have hsecond : a.take head ++ b₂ ++ a₁.drop (a₁.length - tail) = b := by
      rw [show a.take head = b.take head from take_commonHead a b,
        show a₁.drop (a₁.length - tail) = b₁.drop (b₁.length - tail) from drop_commonTail a₁ b₁,
        List.append_assoc, List.take_append_drop, List.take_append_drop]
    rw [hfirst, hsecond] at h
    exact h.normalize

end Compare

end Codemod.Patch
