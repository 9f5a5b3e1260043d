import Codemod.Proofs.Migration.Tally
import Codemod.Proofs.Patch.Correct
import Codemod.Proofs.Run.Restored
import Codemod.Proofs.Text.Order

namespace Codemod

open Files Migration Workspace

namespace Workspace.Disk

section Tracked

variable {d d' : Disk} {fs fs' : FileSystem} {cancelled : Bool} {path content : Bytes} {result : Except Fault Unit}

theorem tracked_track_congr (h : d'.tracked = d.tracked) (file : Tracked) :
    (d'.track file).tracked = (d.track file).tracked := by
  unfold track file?
  rw [h]
  split
  · rfl
  · rfl

theorem file?_congr (h : d'.tracked = d.tracked) (path : Bytes) : d'.file? path = d.file? path := by
  unfold file?
  rw [h]

/-- A commit that succeeds is remembered, and no other. -/
theorem tracked_commit {file : Tracked} (h : d.commit fs cancelled file content = (result, d', fs')) :
    (result = .ok () ∧ ∃ snapshot, d'.tracked = (d.track { file with latest := content, snapshot }).tracked) ∨
      (result ≠ .ok () ∧ d'.tracked = d.tracked) := by
  have hnoted (made : Bool) : (d.noted made file.path).tracked = d.tracked := by cases made <;> rfl
  unfold commit at h
  split at h
  · cases h
    exact .inr ⟨nofun, rfl⟩
  · split at h
    · cases h
      exact .inr ⟨nofun, rfl⟩
    · next made fs₁ _ =>
      dsimp only at h
      split at h
      · cases h
        exact .inr ⟨nofun, hnoted made⟩
      · split at h
        · cases h
          exact .inr ⟨nofun, hnoted made⟩
        · next snapshot _ =>
          cases h
          exact .inl ⟨rfl, snapshot, tracked_track_congr (hnoted made) _⟩

theorem tracked_overwrite {file : Tracked} {d₁ : Disk} (hknown : d.known fs cancelled path = .ok (file, d₁))
    (h : d.overwrite fs cancelled path content = (result, d', fs')) :
    (result = .ok () ∧ ∃ snapshot, d'.tracked = (d₁.track { file with latest := content, snapshot }).tracked) ∨
      (result ≠ .ok () ∧ d'.tracked = d₁.tracked) := by
  rw [overwrite_eq, hknown] at h
  dsimp only at h
  split at h
  · cases h
    exact .inl ⟨rfl, file.snapshot, rfl⟩
  · exact tracked_commit h

theorem map_path_track (d : Disk) (file : Tracked) : (d.track file).tracked.map Tracked.path =
    if (d.file? file.path).isSome then d.tracked.map Tracked.path else d.tracked.map Tracked.path ++ [file.path] := by
  unfold track
  split
  · exact map_key_ite (fun _ _ => rfl) d.tracked
  · rw [List.map_append, List.map_singleton]

theorem nodup_track (h : (d.tracked.map Tracked.path).Nodup) (file : Tracked) :
    ((d.track file).tracked.map Tracked.path).Nodup := by
  rw [map_path_track]
  split
  · exact h
  · next hnew =>
    have hfresh : file.path ∉ d.tracked.map Tracked.path := by
      intro hmem
      obtain ⟨t, ht, hpath⟩ := List.mem_map.mp hmem
      rw [file?, List.find?_isSome] at hnew
      exact hnew ⟨t, ht, decide_eq_true hpath⟩
    rw [← List.concat_eq_append]
    exact h.concat hfresh

end Tracked

section Diffs

variable {d : Disk}

theorem changed_ascends (h : (d.tracked.map Tracked.path).Nodup) : d.changed.Pairwise Bytes.Before :=
  Bytes.mergeSort_ascending (h.sublist (List.filter_sublist.map Tracked.path))

theorem mem_changedFiles {x : Tracked} : x ∈ d.changedFiles ↔ x ∈ d.tracked ∧ x.first ≠ x.latest := by
  rw [changedFiles, List.mem_mergeSort, List.mem_filter, decide_eq_true_iff]

/-- There is a diff for each changed file. -/
theorem map_path_diffs (d : Disk) : d.diffs.map Patch.Diff.path = d.changed := by
  have hall : ∀ x ∈ d.changedFiles, x.first ≠ x.latest := fun x hx => (mem_changedFiles.mp hx).2
  unfold diffs changed
  generalize d.changedFiles = l at hall
  induction l with
  | nil => rfl
  | cons x rest ih =>
    obtain ⟨hx, hrest⟩ := List.forall_mem_cons.mp hall
    have hsplits := Patch.compare_splits (Patch.lines x.first) (Patch.lines x.latest)
    obtain ⟨hnone, habout⟩ := Patch.reports_diffOf hsplits x.path
    obtain ⟨y, hy⟩ := Option.ne_none_iff_exists'.mp (mt hnone.mp hx)
    have hdiff : Patch.diff? x.path x.first x.latest = some y := hy
    rw [List.filterMap_cons, hdiff, List.map_cons, List.map_cons, (habout y hy).about.1, ih hrest]

theorem exists_of_mem_diffs {y : Patch.Diff} (h : y ∈ d.diffs) :
    ∃ x ∈ d.tracked, y.path = x.path ∧ y.before = x.first ∧ y.after = x.latest := by
  obtain ⟨x, hx, hdiff⟩ := List.mem_filterMap.mp h
  have hreports := Patch.reports_diffOf (Patch.compare_splits (Patch.lines x.first) (Patch.lines x.latest)) x.path
  exact ⟨x, (mem_changedFiles.mp hx).1, (hreports.2 y hdiff).about⟩

end Diffs
end Workspace.Disk

namespace Workspace

/-- What a disk remembers of the files of a set, which could all be read at the start, is what they held then and
what they hold, or would hold in a dry run, after some of them were overwritten. -/
structure Recounts (dry : Bool) (fs₀ : FileSystem) (files : FileSet) (paths : List Bytes) (written : Set Bytes)
    (t : Disk × FileSystem) : Prop where
  mode : t.1.dryRun = dry
  strangers : Strangers paths t.2
  begun : ∀ q, files.Lists q → ∃ content, fs₀.read q = .ok content
  readable : t.1.Readable t.2
  still : dry = true → t.2 = fs₀
  distinct : (t.1.tracked.map Tracked.path).Nodup
  listed : ∀ q x, t.1.file? q = some x → files.Lists q
  first : t.1.Recalls fs₀
  latest : ∀ q x, t.1.file? q = some x → dry = false → t.2.read q = .ok x.latest
  untouched : ∀ q ∈ paths, t.1.file? q = none → t.2.read q = fs₀.read q
  tracked : ∀ q ∈ written, (t.1.file? q).isSome
  unwritten : ∀ q x, t.1.file? q = some x → q ∉ written → x.latest = x.first

namespace Recounts

variable {dry : Bool} {fs₀ fs fs' : FileSystem} {files : FileSet} {paths : List Bytes} {written written' : Set Bytes}
  {d d' : Disk}

/-- A file is remembered anew, with what it holds then. -/
theorem track (h : Recounts dry fs₀ files paths written (d, fs)) (hpaths : ∀ q, files.Lists q → q ∈ paths) {x : Tracked}
    (hlisted : files.Lists x.path) (hmode : d'.dryRun = d.dryRun) (htracked : d'.tracked = (d.track x).tracked)
    (hstrangers : Strangers paths fs') (hreadable : d'.Readable fs') (hstill : dry = true → fs' = fs)
    (hothers : ∀ q ∈ paths, q ≠ x.path → fs'.read q = fs.read q) (hfirst : fs₀.read x.path = .ok x.first)
    (hlatest : dry = false → fs'.read x.path = .ok x.latest) (hmore : written ⊆ written')
    (hno : written' ⊆ insert x.path written) (hsame : x.path ∉ written' → x.latest = x.first) :
    Recounts dry fs₀ files paths written' (d', fs') := by
  have hfile (q : Bytes) : d'.file? q = if q = x.path then some x else d.file? q := by
    rw [Disk.file?_congr htracked, Disk.file?_track]
  refine ⟨hmode.trans h.mode, hstrangers, h.begun, hreadable, fun hdry => (hstill hdry).trans (h.still hdry), ?_, ?_, ?_, ?_, ?_, ?_, ?_⟩
  · show (d'.tracked.map Tracked.path).Nodup
    rw [htracked]
    exact Disk.nodup_track h.distinct x
  · intro q y hy
    rw [hfile] at hy
    split at hy
    · next hself => exact hself ▸ hlisted
    · exact h.listed q y hy
  · intro q y hy
    rw [hfile] at hy
    split at hy
    · next hself =>
      cases hy
      exact hself ▸ hfirst
    · exact h.first q y hy
  · intro q y hy hdry
    rw [hfile] at hy
    split at hy
    · next hself =>
      cases hy
      exact hself ▸ hlatest hdry
    · next hother => exact (hothers q (hpaths q (h.listed q y hy)) hother).trans (h.latest q y hy hdry)
  · intro q hq hnone
    rw [hfile] at hnone
    split at hnone
    · cases hnone
    · next hother => exact (hothers q hq hother).trans (h.untouched q hq hnone)
  · intro q hq
    rw [hfile]
    split
    · rfl
    · next hother => exact h.tracked q ((Set.mem_insert_iff.mp (hno hq)).resolve_left hother)
  · intro q y hy hq
    rw [hfile] at hy
    split at hy
    · next hself =>
      cases hy
      exact hsame (hself ▸ hq)
    · exact h.unwritten q y hy fun hbefore => hq (hmore hbefore)

/-- Nothing is remembered anew, and the files hold what they held. -/
theorem keep (h : Recounts dry fs₀ files paths written (d, fs)) (hpaths : ∀ q, files.Lists q → q ∈ paths)
    (hmode : d'.dryRun = d.dryRun) (htracked : d'.tracked = d.tracked) (hstrangers : Strangers paths fs')
    (hreadable : d'.Readable fs') (hstill : dry = true → fs' = fs) (hreads : ∀ q ∈ paths, fs'.read q = fs.read q) :
    Recounts dry fs₀ files paths written (d', fs') := by
  have hfile := Disk.file?_congr htracked
  refine ⟨hmode.trans h.mode, hstrangers, h.begun, hreadable, fun hdry => (hstill hdry).trans (h.still hdry), ?_, ?_, ?_, ?_, ?_, ?_, ?_⟩
  · show (d'.tracked.map Tracked.path).Nodup
    rw [htracked]
    exact h.distinct
  · exact fun q x hx => h.listed q x ((hfile q).symm.trans hx)
  · exact fun q x hx => h.first q x ((hfile q).symm.trans hx)
  · intro q x hx hdry
    have hbefore := (hfile q).symm.trans hx
    exact (hreads q (hpaths q (h.listed q x hbefore))).trans (h.latest q x hbefore hdry)
  · exact fun q hq hnone => (hreads q hq).trans (h.untouched q hq ((hfile q).symm.trans hnone))
  · intro q hq
    rw [hfile]
    exact h.tracked q hq
  · exact fun q x hx => h.unwritten q x ((hfile q).symm.trans hx)

/-- A listed file can be read, whatever was written to it. -/
theorem exists_holds (h : Recounts dry fs₀ files paths written (d, fs)) (hpaths : ∀ q, files.Lists q → q ∈ paths) {q : Bytes}
    (hq : files.Lists q) : ∃ here data, fs.Holds q here data := by
  obtain ⟨first, hfirst⟩ := h.begun q hq
  have hread : ∃ content, fs.read q = .ok content := by
    cases hdry : dry with
    | true =>
      have hsame : fs = fs₀ := h.still hdry
      exact ⟨first, hsame ▸ hfirst⟩
    | false =>
      cases hold : d.file? q with
      | some x => exact ⟨x.latest, h.latest q x hold hdry⟩
      | none => exact ⟨first, (h.untouched q (hpaths q hq) hold).trans hfirst⟩
  obtain ⟨content, hread⟩ := hread
  obtain ⟨here, data, hholds, -⟩ := FileSystem.exists_holds hread
  exact ⟨here, data, hholds⟩

/-- A listed file is read from disk, unless a dry run remembers it. -/
theorem fetch (h : Recounts dry fs₀ files paths written (d, fs)) (hpaths : ∀ q, files.Lists q → q ∈ paths) {q : Bytes}
    (hq : files.Lists q) (hdisk : dry = false ∨ d.file? q = none) :
    ∃ x d₁, d.fetch fs false q = .ok (x, d₁) ∧ d₁.file? q = some x ∧ Recounts dry fs₀ files paths written (d₁, fs) := by
  obtain ⟨here, data, hholds⟩ := h.exists_holds hpaths hq
  let x : Tracked := ⟨q, ((d.file? q).map Tracked.first).getD data.content, data.content, .ofFile q data⟩
  have hfetch : d.fetch fs false q = .ok (x, d.track x) := by
    rw [Disk.fetch, Snapshot.take_of_holds hholds]
  -- what the file holds is what was remembered of it last, if it was
  have hbefore : fs₀.read q = .ok x.first ∧ (q ∉ written → x.latest = x.first) := by
    cases hold : d.file? q with
    | none =>
      have hfirst : x.first = data.content := by simp [x, hold]
      rw [hfirst, ← h.untouched q (hpaths q hq) hold]
      exact ⟨hholds.read, fun _ => rfl⟩
    | some old =>
      have hfirst : x.first = old.first := by simp [x, hold]
      have hdry : dry = false := hdisk.resolve_right (by rw [hold]; simp)
      have hlatest : data.content = old.latest := Except.ok.inj (hholds.read.symm.trans (h.latest q old hold hdry))
      rw [hfirst]
      exact ⟨h.first q old hold, fun hnot => hlatest.trans (h.unwritten q old hold hnot)⟩
  refine ⟨x, d.track x, hfetch, ?_, ?_⟩
  · rw [Disk.file?_track, if_pos rfl]
  · apply h.track hpaths hq (Disk.track_dryRun d x) rfl h.strangers (h.readable.track hholds.readable)
      (fun _ => rfl) (fun _ _ _ => rfl) hbefore.1
    · exact fun _ => hholds.read
    · exact subset_rfl
    · exact Set.subset_insert _ _
    · exact hbefore.2

theorem known (h : Recounts dry fs₀ files paths written (d, fs)) (hpaths : ∀ q, files.Lists q → q ∈ paths) {q : Bytes}
    (hq : files.Lists q) :
    ∃ x d₁, d.known fs false q = .ok (x, d₁) ∧ d₁.file? q = some x ∧ Recounts dry fs₀ files paths written (d₁, fs) := by
  unfold Disk.known
  cases hold : d.file? q with
  | none => exact h.fetch hpaths hq (.inr hold)
  | some x => exact ⟨x, d, rfl, hold, h⟩

theorem follows (hpaths : ∀ q, files.Lists q → q ∈ paths) :
    Migration.Follows Disk.store files.Lists (Recounts dry fs₀ files paths) where
  read {written q t} hq h := by
    obtain ⟨d, fs⟩ := t
    show Recounts dry fs₀ files paths written ((d.read fs false q).2, fs)
    unfold Disk.read
    dsimp only
    split
    · exact h
    · next hpending =>
      have hdisk : dry = false ∨ d.file? q = none := by
        rw [show d.dryRun = dry from h.mode] at hpending
        cases dry with
        | false => exact .inl rfl
        | true => exact .inr hpending
      obtain ⟨x, d₁, hfetch, -, hnext⟩ := h.fetch hpaths hq hdisk
      rw [hfetch]
      exact hnext
  overwrite {written q t} content hq h := by
    obtain ⟨d, fs⟩ := t
    have hmem := hpaths q hq
    obtain ⟨x, d₁, hknown, hx, hnext⟩ := h.known hpaths hq
    generalize hrun : Disk.store.overwrite q content (d, fs) = answer
    obtain ⟨result, d', fs'⟩ := answer
    have hmode : d'.dryRun = d₁.dryRun := (Disk.overwrite_cases hrun).2.1.trans (Disk.known_cases hknown).2.2.1.symm
    obtain ⟨hstrangers, hsame, hstill, hwrite⟩ := h.strangers.overwrite hmem hrun
    have hreadable : d'.Readable fs' := h.readable.overwrite hrun
    have hread {p : Bytes} (hp : p ∈ paths) (hsame : Same fs fs' p) : fs'.read p = fs.read p := by
      obtain ⟨here, data, hleads⟩ := h.strangers.present p hp
      exact hsame.read_eq hleads
    have hothers (p : Bytes) (hp : p ∈ paths) (hne : p ≠ q) : fs'.read p = fs.read p := hread hp (hsame p hp hne)
    have hstay (hdry : dry = true) : fs' = fs := hstill (h.mode.trans hdry)
    obtain rfl : x.path = q := Disk.path_of_file? hx
    obtain ⟨rfl, snapshot, htracked⟩ | ⟨hfailed, htracked⟩ := Disk.tracked_overwrite hknown hrun
    · refine .inl ⟨rfl, ?_⟩
      apply hnext.track hpaths (x := { x with latest := content, snapshot }) hq hmode htracked hstrangers hreadable
        hstay hothers
      · exact hnext.first x.path x hx
      · intro hdry
        obtain ⟨-, hwrong⟩ | hdone := hwrite
        · rw [show d.dryRun = dry from h.mode, hdry] at hwrong
          cases hwrong rfl
        · exact (hdone h.readable).2
      · exact Set.subset_insert _ _
      · exact subset_rfl
      · exact fun hnot => absurd (Set.mem_insert _ _) hnot
    · refine .inr ⟨hfailed, ?_⟩
      apply hnext.keep hpaths hmode htracked hstrangers hreadable hstay
      intro p hp
      by_cases hne : p = x.path
      · obtain ⟨hsame, -⟩ | hdone := hwrite
        · exact hne ▸ hread hmem hsame
        · exact absurd (hdone h.readable).1 hfailed
      · exact hothers p hp hne

theorem start (policy : BackupPolicy) (hstrangers : Strangers paths fs)
    (hreadable : ∀ q, files.Lists q → ∃ content, fs.read q = .ok content) :
    Recounts dry fs files paths ∅ (.start dry policy, fs) where
  mode := rfl
  strangers := hstrangers
  begun := hreadable
  readable := Disk.readable_start dry policy fs
  still _ := rfl
  distinct := List.nodup_nil
  listed q x hx := by cases hx
  first q x hx := by cases hx
  latest q x hx := by cases hx
  untouched q _ _ := rfl
  tracked q hq := absurd hq (Set.notMem_empty q)
  unwritten q x hx := by cases hx

/-- A file that is remembered reads as it was remembered last. -/
theorem read_of_tracked (h : Recounts dry fs₀ files paths written (d, fs)) (hpaths : ∀ q, files.Lists q → q ∈ paths)
    {q : Bytes} {x : Tracked} (hx : d.file? q = some x) : (d.read fs false q).1 = .ok x.latest := by
  rw [Disk.read_result, show d.dryRun = dry from h.mode, hx]
  cases hdry : dry with
  | true => rfl
  | false =>
    obtain ⟨here, data, hholds⟩ := h.exists_holds hpaths (h.listed q x hx)
    rw [if_neg Bool.false_ne_true, Snapshot.take_of_holds hholds]
    exact hholds.read.symm.trans (h.latest q x hx hdry)

/-- Any other reads as at the start. -/
theorem read_of_untracked (h : Recounts dry fs₀ files paths written (d, fs)) (hpaths : ∀ q, files.Lists q → q ∈ paths)
    {q : Bytes} (hq : files.Lists q) (hnone : d.file? q = none) : (d.read fs false q).1 = fs₀.read q := by
  obtain ⟨here, data, hholds⟩ := h.exists_holds hpaths hq
  rw [Disk.read_result, hnone, ite_self, Snapshot.take_of_holds hholds, ← h.untouched q (hpaths q hq) hnone, hholds.read]
  rfl

end Recounts

end Workspace

end Codemod
