import Codemod.Proofs.Patch.Hunks

namespace Codemod.Patch

section Lines

/-- The lines of a content without their newlines; there is none behind a final newline. -/
def textLines (content : Bytes) : List Bytes :=
  let pieces := content.splitOn '\n'
  if pieces.getLast? = some [] then pieces.dropLast else pieces

theorem splitOn_ne_nil (sep : UInt8) (s : Bytes) : s.splitOn sep ≠ [] := by
  cases s with
  | nil => simp [Bytes.splitOn]
  | cons c s =>
    rw [Bytes.splitOn]
    split
    · simp
    · split <;> simp

theorem textLines_newline (s : Bytes) : textLines ('\n' :: s) = [] :: textLines s := by
  obtain ⟨piece, pieces, hs⟩ := List.exists_cons_of_ne_nil (splitOn_ne_nil '\n' s)
  simp only [textLines, Bytes.splitOn, if_true, hs, List.getLast?_cons_cons, List.dropLast_cons_cons]
  split <;> rfl

theorem textLines_cons {c : UInt8} (hc : c ≠ '\n') (s : Bytes) : textLines (c :: s) =
    match textLines s with
    | [] => [[c]]
    | line :: rest => (c :: line) :: rest := by
  obtain ⟨piece, pieces, hs⟩ := List.exists_cons_of_ne_nil (splitOn_ne_nil '\n' s)
  simp only [textLines, Bytes.splitOn, if_neg hc, hs]
  cases pieces with
  | nil => cases piece <;> simp
  | cons next pieces =>
    simp only [List.getLast?_cons_cons, List.dropLast_cons_cons]
    split <;> simp

theorem ne_nil_of_mem_lines (s : Bytes) : ∀ line ∈ lines s, line ≠ [] := by
  induction s with
  | nil => simp [lines]
  | cons c s ih =>
    rw [lines]
    split
    · simpa using ih
    · split
      · simp
      · next heq =>
        rw [heq] at ih
        simp only [List.mem_cons, forall_eq_or_imp] at ih ⊢
        exact ⟨by simp, ih.2⟩

theorem flatten_lines (s : Bytes) : (lines s).flatten = s := by
  induction s with
  | nil => rfl
  | cons c s ih =>
    rw [lines]
    split
    · simp [ih]
    · split
      · next heq =>
        rw [heq] at ih
        simp [← ih]
      · next heq =>
        rw [heq] at ih
        simp [← ih]

theorem dropTail_newline_cons (c : UInt8) {line : Bytes} (h : line ≠ []) :
    Bytes.dropTail (c :: line) "\n" = c :: line.dropTail "\n" := by
  have hends : Bytes.endsWith (c :: line) "\n" = line.endsWith "\n" := by
    rw [Bool.eq_iff_iff, Bytes.endsWith, Bytes.endsWith, List.isSuffixOf_iff_suffix, List.isSuffixOf_iff_suffix,
      List.suffix_cons_iff, show bytes "\n" = ['\n'.toUInt8] from rfl]
    simp [h.symm]
  obtain ⟨a, rest, rfl⟩ := List.exists_cons_of_ne_nil h
  rw [Bytes.dropTail, Bytes.dropTail, hends]
  split <;> rfl

theorem map_dropTail_lines (s : Bytes) : (lines s).map (·.dropTail "\n") = textLines s := by
  induction s with
  | nil => rfl
  | cons c s ih =>
    have hne := ne_nil_of_mem_lines s
    rw [lines]
    split
    · next hc =>
      rw [beq_iff_eq.mp hc, textLines_newline, List.map_cons, ih]
      rfl
    · next hc =>
      have hc : c ≠ '\n' := by simpa using hc
      have hlast : Bytes.dropTail [c] "\n" = [c] := by
        refine if_neg ?_
        rw [Bytes.endsWith, List.isSuffixOf_iff_suffix, show bytes "\n" = ['\n'.toUInt8] from rfl]
        simpa [List.suffix_cons_iff] using hc.symm
      rw [textLines_cons hc, ← ih]
      cases hs : lines s with
      | nil => rw [List.map_nil, List.map_singleton, hlast]
      | cons line rest =>
        rw [hs] at hne
        rw [List.map_cons, List.map_cons, dropTail_newline_cons c (hne _ (List.mem_cons_self ..))]

end Lines

section Comparison

/-- What a comparison has of one text, in lines. -/
theorem textOf_chunkLines (left : Side) (chunks : List (Chunk Bytes)) :
    textOf (fun l => l.side != left) (chunks.flatMap chunkLines) = (without left chunks).map (·.dropTail "\n") := by
  induction chunks with
  | nil => rfl
  | cons c chunks ih =>
    rw [List.flatMap_cons, textOf_append, ih, without_cons, List.map_append]
    by_cases h : c.side = left
    · simp [textOf, chunkLines, h]
    · have hkept : (chunkLines c).filter (fun l => l.side != left) = chunkLines c :=
        List.filter_eq_self.mpr fun l hl => by
          obtain ⟨line, _, rfl⟩ := List.mem_map.mp hl
          simpa using h
      rw [textOf, hkept, if_neg h, chunkLines, List.map_map]
      rfl

variable {chunks : List (Chunk Bytes)} {before after : Bytes}

theorem Splits.textOf_isBefore (h : Splits chunks (lines before) (lines after)) :
    textOf isBefore (chunks.flatMap chunkLines) = textLines before := by
  rw [← map_dropTail_lines, ← h.first]
  exact textOf_chunkLines .added chunks

theorem Splits.textOf_isAfter (h : Splits chunks (lines before) (lines after)) :
    textOf isAfter (chunks.flatMap chunkLines) = textLines after := by
  rw [← map_dropTail_lines, ← h.second]
  exact textOf_chunkLines .removed chunks

/-- Texts without a changed line between them are equal. -/
theorem Splits.eq_of_both (h : Splits chunks (lines before) (lines after))
    (hboth : ∀ l ∈ chunks.flatMap chunkLines, l.side = .both) : before = after := by
  have hall {left : Side} (hleft : left ≠ .both) : without left chunks = chunks.flatMap Chunk.items := by
    refine List.flatMap_congr fun c hc => ?_
    split
    · next hside =>
      rw [eq_comm, List.eq_nil_iff_forall_not_mem]
      intro line hline
      have := hboth ⟨c.side, line.dropTail "\n"⟩ (List.mem_flatMap.mpr ⟨c, hc, List.mem_map.mpr ⟨line, hline, rfl⟩⟩)
      exact hleft (hside.symm.trans this)
    · rfl
  rw [← flatten_lines before, ← flatten_lines after, ← h.first, ← h.second, hall (by simp), hall (by simp)]

end Comparison

/-- A diff turns one content into another: its hunks show what stands in both where they say, with
lines between them that no hunk shows, and replacing what they show of the first content by what they
show of the second makes its lines. -/
structure Diff.Patches (d : Diff) (path before after : Bytes) : Prop where
  about : d.path = path ∧ d.before = before ∧ d.after = after
  shows : d.hunks ≠ []
  stand : ∀ h ∈ d.hunks, StandAt (textLines before) h.beforeStart h.beforeCount h.beforeText ∧
    StandAt (textLines after) h.afterStart h.afterCount h.afterText
  apart : d.hunks.Pairwise fun h k =>
    h.beforeOffset + h.beforeCount < k.beforeOffset ∧ h.afterOffset + h.afterCount < k.afterOffset
  applies : applyHunks 0 d.hunks (textLines before) = textLines after
  additions : d.additions = total (d.hunks.map fun h => h.lines.countP (·.side = .added))
  deletions : d.deletions = total (d.hunks.map fun h => h.lines.countP (·.side = .removed))
  balance : (textLines after).length + d.deletions = (textLines before).length + d.additions

/-- What a comparison of two contents may report: a diff that turns one into the other, or nothing when
they are equal. -/
def Reports (path before after : Bytes) (result : Option Diff) : Prop :=
  (result = none ↔ before = after) ∧ ∀ d, result = some d → d.Patches path before after

section Report

variable {chunks : List (Chunk Bytes)} {before after : Bytes}

theorem countP_hunks (p : Line → Bool) (hunks : List Hunk) :
    (hunks.flatMap Hunk.lines).countP p = total (hunks.map fun h => h.lines.countP p) := by
  induction hunks with
  | nil => rfl
  | cons h hunks ih => rw [List.flatMap_cons, List.countP_append, ih, List.map_cons, total]

theorem countP_balance (ls : List Line) :
    ls.countP isAfter + ls.countP (·.side = .removed) = ls.countP isBefore + ls.countP (·.side = .added) := by
  induction ls with
  | nil => rfl
  | cons l ls ih =>
    obtain ⟨side, text⟩ := l
    simp only [List.countP_cons]
    cases side <;> simp [isBefore, isAfter] <;> omega

theorem Splits.patches (h : Splits chunks (lines before) (lines after)) {hunks : List Hunk}
    (hcut : Cut [] (chunks.flatMap chunkLines) hunks) (hne : hunks ≠ []) (path : Bytes) :
    (⟨path, before, after, hunks⟩ : Diff).Patches path before after where
  about := ⟨rfl, rfl, rfl⟩
  shows := hne
  stand := by
    have := hcut.standAt
    rwa [List.nil_append, h.textOf_isBefore, h.textOf_isAfter] at this
  apart := hcut.pairwise
  applies := by
    have := hcut.applyHunks_eq
    rwa [h.textOf_isBefore, h.textOf_isAfter] at this
  additions := countP_hunks ..
  deletions := countP_hunks ..
  balance := by
    have hdeletions := hcut.countP_lines .removed (by simp)
    have hadditions := hcut.countP_lines .added (by simp)
    rw [Diff.additions, Diff.deletions, Diff.allLines, hdeletions, hadditions, ← h.textOf_isBefore, ← h.textOf_isAfter,
      length_textOf, length_textOf]
    exact countP_balance _

theorem reports_diffOf (h : Splits chunks (lines before) (lines after)) (path : Bytes) :
    Reports path before after (diffOf chunks path before after) := by
  have hcut := cut_hunks (chunks.flatMap chunkLines)
  unfold diffOf
  dsimp only
  generalize (joinRanges (changedRanges 0 (chunks.flatMap chunkLines))).map (hunkAt (chunks.flatMap chunkLines)) = hunks
    at hcut ⊢
  by_cases heq : before = after
  · rw [if_pos heq]
    exact ⟨by simp [heq], by simp⟩
  rw [if_neg heq]
  cases hunks with
  | nil => exact absurd (h.eq_of_both hcut.both_of_nil) heq
  | cons k hunks =>
    refine ⟨by simp [heq], ?_⟩
    intro d hd
    obtain rfl := Option.some.inj hd
    exact h.patches hcut (by simp) path

end Report

/-- A diff of two contents is right however their lines are compared, and so is the diff that is made. -/
theorem reports_diff (path before after : Bytes) :
    (∀ chunks, Splits chunks (lines before) (lines after) → Reports path before after (diffOf chunks path before after)) ∧
      Reports path before after (diff? path before after) :=
  ⟨fun _ h => reports_diffOf h path, reports_diffOf (compare_splits ..) path⟩

/-- A last line without a newline differs from one with it. -/
theorem reports_diff_unfinished :
    let chunks : List (Chunk Bytes) := [⟨.both, ["a\n"]⟩, ⟨.removed, ["b"]⟩, ⟨.added, ["b\n"]⟩]
    Splits chunks (lines "a\nb") (lines "a\nb\n") ∧
      diffOf chunks "f" "a\nb" "a\nb\n" =
        some ⟨"f", "a\nb", "a\nb\n", [⟨1, 2, 1, 2, [⟨.both, "a"⟩, ⟨.removed, "b"⟩, ⟨.added, "b"⟩]⟩]⟩ ∧
      Reports "f" "a\nb" "a\nb\n" (diffOf chunks "f" "a\nb" "a\nb\n") :=
  ⟨⟨by decide, by decide⟩, by decide, (reports_diff ..).1 _ ⟨by decide, by decide⟩⟩

end Codemod.Patch
