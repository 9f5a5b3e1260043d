import Codemod.Report.Render
import Codemod.Proofs.Files.Spelling
import Codemod.Proofs.Patch.Correct
import Codemod.Proofs.Text.Lower
import Mathlib

namespace Codemod

/-- The byte that ends a line. -/
abbrev newline : UInt8 := 10

namespace Bytes

/-- Lines one below the other. -/
def unlines (lines : List Bytes) : Bytes := lines.flatMap (· ++ bytes "\n")

theorem unlines_cons (line : Bytes) (lines : List Bytes) : unlines (line :: lines) = line ++ newline :: unlines lines := by
  rw [unlines, List.flatMap_cons, List.append_assoc]
  rfl

theorem unlines_append (a b : List Bytes) : unlines (a ++ b) = unlines a ++ unlines b := List.flatMap_append ..

theorem length_unlines (lines : List Bytes) : (unlines lines).length = (lines.map List.length).sum + lines.length := by
  induction lines with
  | nil => rfl
  | cons line lines ih =>
    rw [unlines_cons, List.length_append, List.length_cons, ih, List.map_cons, List.sum_cons, List.length_cons]
    omega

theorem splitOn_unlines (lines : List Bytes) :
    splitOn newline (unlines lines) = lines.flatMap (splitOn newline) ++ [[]] := by
  induction lines with
  | nil => rfl
  | cons line lines ih => rw [unlines_cons, splitOn_append, ih, List.flatMap_cons, List.append_assoc]

/-- A text without separators belongs to the first piece of what follows it. -/
theorem splitOn_append_of_not_mem {sep : UInt8} {s : Bytes} (hs : sep ∉ s) (t : Bytes) :
    ∃ first, splitOn sep (s ++ t) = (s ++ first) :: (splitOn sep t).tail := by
  induction s with
  | nil =>
    obtain ⟨first, rest, ht⟩ := List.exists_cons_of_ne_nil (splitOn_ne_nil sep t)
    exact ⟨first, by rw [List.nil_append, ht]; rfl⟩
  | cons c s ih =>
    rw [List.mem_cons, not_or] at hs
    obtain ⟨first, hfirst⟩ := ih hs.2
    exact ⟨first, by rw [List.cons_append, splitOn, if_neg (Ne.symm hs.1), hfirst]; rfl⟩

theorem dropHead_suffix (s head : Bytes) : s.dropHead head <:+ s := by
  unfold dropHead
  split
  · exact List.drop_suffix ..
  · exact List.suffix_refl s

/-- Leaving out lines leaves out text. -/
theorem unlines_filter_eq_iff {p : Bytes → Bool} {change : Bytes → Bytes} {lines : List Bytes} :
    unlines ((lines.filter p).map change) = unlines (lines.map change) ↔ ∀ line ∈ lines, p line = true := by
  constructor
  · intro h
    have hlength := congrArg List.length h
    rw [length_unlines, length_unlines, List.length_map, List.length_map] at hlength
    have hsum : (((lines.filter p).map change).map List.length).sum ≤ ((lines.map change).map List.length).sum :=
      ((List.filter_sublist.map change).map List.length).sum_le_sum fun _ _ => Nat.zero_le _
    have hle := List.length_filter_le p lines
    exact List.length_filter_eq_length_iff.mp (by omega)
  · intro h
    rw [List.filter_eq_self.mpr h]

end Bytes

namespace Patch

/-- The header of each hunk and its lines. -/
def Diff.body (d : Diff) : List Bytes := d.hunks.flatMap fun h => h.header :: h.lines.map Line.render

/-- No line of the diff holds a line break. -/
def Diff.Lined (d : Diff) : Prop := ∀ l ∈ d.allLines, newline ∉ l.text

/-- With its mark in front, the line begins like a line that names a file. -/
def Line.LooksLikeHeader (l : Line) : Prop :=
  (l.side = .removed ∧ bytes "-- a/" <+: l.text) ∨ (l.side = .added ∧ bytes "++ b/" <+: l.text)

instance (d : Diff) : Decidable d.Lined := inferInstanceAs (Decidable (∀ l ∈ d.allLines, newline ∉ l.text))

instance (l : Line) : Decidable l.LooksLikeHeader :=
  inferInstanceAs (Decidable ((l.side = .removed ∧ bytes "-- a/" <+: l.text) ∨ (l.side = .added ∧ bytes "++ b/" <+: l.text)))

section Lined

theorem newline_not_mem_textLines {s line : Bytes} (h : line ∈ textLines s) : newline ∉ line := by
  have hpiece : line ∈ s.splitOn '\n' := by
    unfold textLines at h
    dsimp only at h
    split at h
    · exact (List.dropLast_sublist _).subset h
    · exact h
  exact Bytes.not_mem_of_mem_splitOn hpiece

theorem Splits.newline_not_mem {chunks : List (Chunk Bytes)} {before after : Bytes}
    (h : Splits chunks (lines before) (lines after)) : ∀ l ∈ chunks.flatMap chunkLines, newline ∉ l.text := by
  intro l hl
  have hmem {p : Line → Bool} (hp : p l = true) : l.text ∈ textOf p (chunks.flatMap chunkLines) :=
    List.mem_map_of_mem (List.mem_filter.mpr ⟨hl, hp⟩)
  by_cases hside : l.side = .added
  · exact newline_not_mem_textLines (h.textOf_isAfter ▸ hmem (p := isAfter) (by simp [isAfter, hside]))
  · exact newline_not_mem_textLines (h.textOf_isBefore ▸ hmem (p := isBefore) (by simp [isBefore, hside]))

/-- A diff that is made of two contents shows lines. -/
theorem lined_of_diff? {path before after : Bytes} {d : Diff} (h : diff? path before after = some d) : d.Lined := by
  have hall := (compare_splits (lines before) (lines after)).newline_not_mem
  unfold diff? diffOf at h
  dsimp only at h
  split at h
  · cases h
  · split at h
    · cases h
    · cases h
      intro l hl
      obtain ⟨hunk, hhunk, hl⟩ := List.mem_flatMap.mp hl
      obtain ⟨range, -, rfl⟩ := List.mem_map.mp hhunk
      exact hall l (List.mem_of_mem_take (List.mem_of_mem_drop hl))

end Lined

section Body

variable {d : Diff}

theorem newline_not_mem_ofNat (n : Nat) : newline ∉ Bytes.ofNat n := by
  rw [Bytes.ofNat, bytes, List.mem_flatMap]
  rintro ⟨c, hc, hmem⟩
  rw [Nat.toString_eq_repr, Nat.toList_repr] at hc
  have hdigit := Nat.isDigit_of_mem_toDigits (by decide) (by decide) hc
  rw [(Text.mem_encode (by decide)).mp hmem] at hdigit
  cases hdigit

theorem newline_not_mem_header (h : Hunk) : newline ∉ h.header := by
  have hdigits := newline_not_mem_ofNat
  simp only [Hunk.header, Bytes.concat, List.flatten_cons, List.flatten_nil, List.mem_append, hdigits, false_or]
  decide

theorem mem_body {line : Bytes} : line ∈ d.body ↔
    (∃ h ∈ d.hunks, line = h.header) ∨ ∃ l ∈ d.allLines, line = l.render := by
  simp only [Diff.body, Diff.allLines, List.mem_flatMap, List.mem_cons, List.mem_map]
  constructor
  · rintro ⟨h, hh, rfl | ⟨l, hl, rfl⟩⟩
    · exact .inl ⟨h, hh, rfl⟩
    · exact .inr ⟨l, ⟨h, hh, hl⟩, rfl⟩
  · rintro (⟨h, hh, rfl⟩ | ⟨l, ⟨h, hh, hl⟩, rfl⟩)
    · exact ⟨h, hh, .inl rfl⟩
    · exact ⟨h, hh, .inr ⟨l, hl, rfl⟩⟩

/-- Each line of a diff is one piece of its text, and there is something in it. -/
theorem Diff.Lined.of_mem_body (hlined : d.Lined) {line : Bytes} (hline : line ∈ d.body) : newline ∉ line ∧ line ≠ [] := by
  obtain ⟨h, -, rfl⟩ | ⟨l, hl, rfl⟩ := mem_body.mp hline
  · exact ⟨newline_not_mem_header h, List.cons_ne_nil _ _⟩
  · have htext := hlined l hl
    obtain ⟨side, text⟩ := l
    cases side <;> exact ⟨List.not_mem_cons_of_ne_of_not_mem (by decide) htext, List.cons_ne_nil _ _⟩

/-- The pieces of a diff made of lines are its lines. -/
theorem flatMap_splitOn_body (hlined : d.Lined) : d.body.flatMap (Bytes.splitOn newline) = d.body := by
  have hpieces : d.body.flatMap (Bytes.splitOn newline) = d.body.flatMap fun line => [line] :=
    List.flatMap_congr fun line hline => Bytes.splitOn_of_not_mem (hlined.of_mem_body hline).1
  rw [hpieces, List.flatMap_singleton']

end Body

end Patch

namespace Report

open Patch Text

/-- A report on a diff: three lines that name the file, some lines, and an empty one. -/
def Options.listing (o : Options) (d : Diff) (lines : List Bytes) : Bytes :=
  let path := o.shownPath d.path
  Bytes.unlines ((Bytes.concat ["diff --git a/", path, " b/", path] :: ("--- a/" ++ path) :: ("+++ b/" ++ path) :: lines).map
    expandTabs ++ [[]])

/-- A line is shown if there is something in it and it does not name a file. -/
def isShown (line : Bytes) : Bool := !line.isEmpty && !isFileLine line

/-- What a path has behind its first line. -/
def pathLines (d : Diff) : List Bytes := ((d.shownPath.splitOn newline).tail).filter isShown

section Lines

variable {o : Options} {d : Diff}

/-- A mark and a text begin like a line that names a file if the text does behind the mark. -/
theorem isFileLine_cons (mark : UInt8) (text : Bytes) : isFileLine (mark :: text) = true ↔
    (mark = 45 ∧ bytes "-- a/" <+: text) ∨ (mark = 43 ∧ bytes "++ b/" <+: text) := by
  have hremoved : bytes "--- a/" = 45 :: bytes "-- a/" := rfl
  have hadded : bytes "+++ b/" = 43 :: bytes "++ b/" := rfl
  rw [isFileLine, Bool.or_eq_true, Bytes.startsWith, Bytes.startsWith, List.isPrefixOf_iff_prefix,
    List.isPrefixOf_iff_prefix, hremoved, hadded, List.cons_prefix_cons, List.cons_prefix_cons, eq_comm (b := mark),
    eq_comm (b := mark)]

theorem isFileLine_render (l : Line) : isFileLine l.render = true ↔ l.LooksLikeHeader := by
  obtain ⟨side, text⟩ := l
  cases side with
  | both => exact (isFileLine_cons 32 text).trans (by simp [Line.LooksLikeHeader])
  | added => exact (isFileLine_cons 43 text).trans (by simp [Line.LooksLikeHeader])
  | removed => exact (isFileLine_cons 45 text).trans (by simp [Line.LooksLikeHeader])

theorem isFileLine_header (h : Hunk) : isFileLine h.header = false := by
  have hcons : ∃ rest, h.header = 64 :: rest := ⟨_, rfl⟩
  obtain ⟨rest, hrest⟩ := hcons
  rw [hrest, Bool.eq_false_iff, ne_eq, isFileLine_cons]
  simp

theorem isShown_of_file {mark : Bytes} (h : isFileLine mark = true) (first : Bytes) : isShown (mark ++ first) = false := by
  have hfile : isFileLine (mark ++ first) = true := by
    unfold isFileLine Bytes.startsWith at h ⊢
    rw [Bool.or_eq_true, List.isPrefixOf_iff_prefix, List.isPrefixOf_iff_prefix] at h ⊢
    exact h.imp (·.trans (List.prefix_append ..)) (·.trans (List.prefix_append ..))
  rw [isShown, hfile, Bool.not_true, Bool.and_false]

theorem palette_of_plain (h : Palette.wantsColor o.color = false) : o.palette = Palette.plain := by
  rw [Options.palette, Palette.ofColor, h]
  rfl

theorem diffStyle_plain (line : Bytes) : diffStyle Palette.plain line = .plain := by
  unfold diffStyle
  split
  · rfl
  · split
    · rfl
    · split <;> rfl

/-- Without colors the report on a diff is a listing of the pieces of its text that are shown. -/
theorem renderDiffOf_plain (h : Palette.wantsColor o.color = false) (d : Diff) :
    renderDiffOf o d = o.listing d ((d.render.splitOn newline).filter isShown) := by
  have hline (line : Bytes) : (diffStyle Palette.plain line).render line ++ bytes "\n" = expandTabs line ++ bytes "\n" := by
    rw [diffStyle_plain]
    rfl
  have hshown : (fun line : Bytes => !line.isEmpty && !isFileLine line) = isShown := rfl
  unfold renderDiffOf Options.listing Bytes.unlines
  dsimp only
  rw [palette_of_plain h, hshown]
  simp only [hline, Bytes.concat, List.flatten_cons, List.flatten_nil, List.append_nil, List.map_cons, List.flatMap_cons,
    List.flatMap_append, List.flatMap_map, List.cons_append, List.flatMap_nil, List.nil_append, List.append_assoc]
  rfl

/-- The pieces of a diff that are shown. -/
theorem filter_render (hhunks : d.hunks ≠ []) : (d.render.splitOn newline).filter isShown =
    pathLines d ++ (pathLines d ++ (d.body.flatMap (Bytes.splitOn newline)).filter isShown) := by
  have hrender : d.render = Bytes.unlines ((bytes "--- a/" ++ d.shownPath) :: (bytes "+++ b/" ++ d.shownPath) :: d.body) := by
    simp [Diff.render, Diff.renderLines, hhunks, Diff.body, Bytes.unlines, Bytes.concat]
  have hheader {mark : Bytes} (hmark : newline ∉ mark) (hfile : isFileLine mark = true) :
      ((mark ++ d.shownPath).splitOn newline).filter isShown = pathLines d := by
    obtain ⟨first, hfirst⟩ := Bytes.splitOn_append_of_not_mem hmark d.shownPath
    rw [hfirst, List.filter_cons_of_neg (by simp [isShown_of_file hfile])]
    rfl
  rw [hrender, Bytes.splitOn_unlines, List.flatMap_cons, List.flatMap_cons, List.filter_append, List.filter_append,
    List.filter_append, hheader (by decide) (by decide), hheader (by decide) (by decide), List.append_assoc,
    List.append_assoc]
  exact congrArg (fun shown => pathLines d ++ (pathLines d ++ shown)) (List.append_nil _)

theorem listing_inj {a b : List Bytes} (h : o.listing d a = o.listing d b) :
    Bytes.unlines (a.map expandTabs) = Bytes.unlines (b.map expandTabs) := by
  unfold Options.listing at h
  simp only [Bytes.unlines_append, List.map_cons, Bytes.unlines_cons] at h
  simpa using h

end Lines

section Complete

variable {o : Options} {d : Diff}

/-- A path of one line has no lines behind its first. -/
theorem pathLines_eq_nil (hpath : newline ∉ d.path) : pathLines d = [] := by
  have hshown : newline ∉ d.shownPath := fun hmem => hpath ((Bytes.dropHead_suffix ..).subset hmem)
  rw [pathLines, Bytes.splitOn_of_not_mem hshown]
  rfl

theorem filter_body (hlined : d.Lined) : d.body.filter isShown = d.body.filter (!isFileLine ·) :=
  List.filter_congr fun line hline => by
    rw [isShown, List.isEmpty_eq_false_iff.mpr (hlined.of_mem_body hline).2, Bool.not_false, Bool.true_and]

theorem forall_body_iff : (∀ line ∈ d.body, (!isFileLine line) = true) ↔ ∀ l ∈ d.allLines, ¬l.LooksLikeHeader := by
  constructor
  · intro h l hl
    rw [← isFileLine_render, Bool.not_eq_true, ← Bool.not_eq_true']
    exact h _ (mem_body.mpr (.inr ⟨l, hl, rfl⟩))
  · intro h line hline
    obtain ⟨hunk, -, rfl⟩ | ⟨l, hl, rfl⟩ := mem_body.mp hline
    · rw [isFileLine_header, Bool.not_false]
    · rw [Bool.not_eq_true', ← Bool.not_eq_true, isFileLine_render]
      exact h l hl

/-- Without colors the report on a diff lists the pieces of its text that have something in them and do not begin
like a line that names a file. Where the path and the texts are single lines, as in every diff of two contents, the
pieces are the header and the lines of each hunk, and all of them are shown exactly if no line with its mark in front
begins like one that names a file. -/
theorem renderDiffOf_shown (hcolor : Palette.wantsColor o.color = false) (hhunks : d.hunks ≠ []) :
    renderDiffOf o d =
        o.listing d (pathLines d ++ (pathLines d ++ (d.body.flatMap (Bytes.splitOn newline)).filter isShown)) ∧
      (newline ∉ d.path → d.Lined → renderDiffOf o d = o.listing d (d.body.filter (!isFileLine ·)) ∧
        (renderDiffOf o d = o.listing d d.body ↔ ∀ l ∈ d.allLines, ¬l.LooksLikeHeader)) ∧
      ∀ path before after, diff? path before after = some d → d.Lined := by
  have hall := (renderDiffOf_plain hcolor d).trans (congrArg (o.listing d) (filter_render hhunks))
  refine ⟨hall, fun hpath hlined => ?_, fun path before after => lined_of_diff?⟩
  have hlines : renderDiffOf o d = o.listing d (d.body.filter (!isFileLine ·)) := by
    rw [hall, pathLines_eq_nil hpath, flatMap_splitOn_body hlined, filter_body hlined]
    rfl
  refine ⟨hlines, ?_⟩
  rw [hlines, ← forall_body_iff]
  constructor
  · exact fun h => Bytes.unlines_filter_eq_iff.mp (listing_inj h)
  · exact fun h => by rw [List.filter_eq_self.mpr h]

/-- The report on a page whose only line changes shows the change. -/
theorem renderDiffOf_shown_page :
    ∃ d, diff? "a.html" "<p>\n" "<q>\n" = some d ∧
      renderDiffOf .standard d = Options.listing .standard d ["@@ -1,1 +1,1 @@", "-<p>", "+<q>"] := by
  let d : Diff := ⟨"a.html", "<p>\n", "<q>\n", [⟨1, 1, 1, 1, [⟨.removed, "<p>"⟩, ⟨.added, "<q>"⟩]⟩]⟩
  have hplain : newline ∉ d.path := by decide
  have hlined : d.Lined := by decide
  have hshown := (renderDiffOf_shown (o := .standard) rfl (List.cons_ne_nil _ _ : d.hunks ≠ [])).2.1 hplain hlined
  exact ⟨d, by cbv, hshown.2.mpr (by decide)⟩

/-- A removed line that goes on like the name of a file is missing from the report. -/
theorem renderDiffOf_dashes :
    ∃ d, diff? "a.sql" "-- a/x\n" "y\n" = some d ∧ d.body = ["@@ -1,1 +1,1 @@", "--- a/x", "+y"] ∧
      renderDiffOf .standard d = Options.listing .standard d ["@@ -1,1 +1,1 @@", "+y"] ∧
      renderDiffOf .standard d ≠ Options.listing .standard d d.body := by
  refine ⟨⟨"a.sql", "-- a/x\n", "y\n", [⟨1, 1, 1, 1, [⟨.removed, "-- a/x"⟩, ⟨.added, "y"⟩]⟩]⟩, by cbv, ?_, ?_, ?_⟩
  all_goals decide +kernel

end Complete

end Report

end Codemod
