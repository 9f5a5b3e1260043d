import Codemod.Edit.Batch
import Codemod.Proofs.Workspace.Recorded
import Mathlib.Data.List.Count
import Mathlib.Data.List.Perm.Basic

namespace Codemod

/-- Sorting keeps the occurrences of one text. -/
theorem Bytes.sort_filter (texts : List Bytes) (text : Bytes) :
    Bytes.sort (texts.filter (· = text)) = (Bytes.sort texts).filter (· = text) := by
  have hcount : (Bytes.sort texts).count text = texts.count text := (List.mergeSort_perm texts Bytes.le).count_eq text
  rw [List.filter_eq, List.filter_eq, hcount]
  exact List.perm_replicate.mp (List.mergeSort_perm _ _)

theorem Edit.applyChanges_nil (content : Bytes) : Edit.applyChanges content [] = .ok content := by
  simp [Edit.applyChanges, Edit.validate, Edit.sortChanges]
  rfl

namespace Edit.Batch

open Workspace

/-- The changes that wait for one path. -/
def only (path : Bytes) (b : Batch) : Batch := ⟨b.queued.filter (·.1 = path)⟩

theorem lookup_filter {α : Type} (path : Bytes) (l : List (Bytes × α)) :
    (l.filter (·.1 = path)).lookup path = l.lookup path := by
  induction l with
  | nil => rfl
  | cons x l ih =>
    obtain ⟨q, a⟩ := x
    by_cases hq : q = path
    · subst hq
      simp
    · have hne : (path == q) = false := beq_eq_false_iff_ne.mpr (Ne.symm hq)
      rw [List.filter_cons_of_neg (by simpa using hq), ih, List.lookup_cons, hne]

theorem pending_only (path : Bytes) (b : Batch) : (b.only path).pending path = b.pending path := by
  rw [pending, pending, only, lookup_filter]

theorem paths_only (path : Bytes) (b : Batch) : (b.only path).paths = b.paths.filter (· = path) := by
  rw [paths, paths, ← Bytes.sort_filter, only, List.filter_map]
  rfl

/-- Queue further changes behind those of a path. -/
def extend (path : Bytes) (changes : List Change) (x : Bytes × List Change) : Bytes × List Change :=
  if x.1 = path then (x.1, x.2 ++ changes) else x

theorem extend_fst (path : Bytes) (changes : List Change) (x : Bytes × List Change) :
    (extend path changes x).1 = x.1 := by
  unfold extend
  split <;> rfl

theorem add_eq (b : Batch) (path : Bytes) (changes : List Change) :
    b.add path changes = if changes.isEmpty then b
      else if (b.queued.lookup path).isSome then ⟨b.queued.map (extend path changes)⟩
      else ⟨b.queued ++ [(path, changes)]⟩ := rfl

theorem filter_extend (path q : Bytes) (changes : List Change) (l : List (Bytes × List Change)) :
    (l.map (extend q changes)).filter (·.1 = path) = (l.filter (·.1 = path)).map (extend q changes) := by
  rw [List.filter_map]
  congr 1
  refine List.filter_congr fun x _ => ?_
  rw [Function.comp_apply, extend_fst]

theorem only_add_self (path : Bytes) (b : Batch) (changes : List Change) :
    (b.add path changes).only path = (b.only path).add path changes := by
  have hlookup : ((b.only path).queued.lookup path).isSome = (b.queued.lookup path).isSome := by
    rw [only, lookup_filter]
  rw [add_eq, add_eq, hlookup]
  split
  · rfl
  · split
    · simp only [only, filter_extend]
    · simp [only]

theorem only_add_other {path q : Bytes} (hq : q ≠ path) (b : Batch) (changes : List Change) :
    (b.add q changes).only path = b.only path := by
  rw [add_eq]
  split
  · rfl
  · split
    · simp only [only, filter_extend, Batch.mk.injEq]
      refine (List.map_congr_left ?_).trans (List.map_id _)
      intro x hx
      have hpath : x.1 = path := by simpa using (List.mem_filter.mp hx).2
      rw [extend, if_neg fun he => hq (he.symm.trans hpath)]
      rfl
    · simp [only, hq]

variable {σ β : Type} {store : Store σ} {file : Bytes → σ → β}

theorem flushPath_other (hs : store.Separable file) {path q : Bytes} (hq : q ≠ path) (changes : List Change)
    (t : σ) : file q (flushPath store path changes t).2 = file q t := by
  have hread := hs.read_file path q t
  unfold flushPath
  split
  · next e t' h => rw [← hread, h]
  · next content t' h =>
    have htree : file q t' = file q t := by rw [← hread, h]
    split
    · exact htree
    · exact htree
    · exact htree
    · next updated _ =>
      have hwrite := hs.overwrite_other updated t' hq
      split
      · exact htree
      · split
        · next hw => rw [← htree, ← hwrite, hw]
        · next hw => rw [← htree, ← hwrite, hw]

/-- A flush of one path in two stores that agree on its file. -/
theorem flushPath_eq (hs : store.Separable file) {path : Bytes} {t u : σ} (h : file path t = file path u)
    (changes : List Change) :
    (flushPath store path changes t).1 = (flushPath store path changes u).1 ∧
      file path (flushPath store path changes t).2 = file path (flushPath store path changes u).2 := by
  have hread := hs.read_eq h
  have htree : file path (store.read path t).2 = file path (store.read path u).2 := by
    rw [hs.read_file, hs.read_file, h]
  unfold flushPath
  generalize store.read path t = readT at hread htree ⊢
  generalize store.read path u = readU at hread htree ⊢
  obtain ⟨a, t'⟩ := readT
  obtain ⟨b, u'⟩ := readU
  obtain rfl : a = b := hread
  cases a with
  | error e => exact ⟨rfl, htree⟩
  | ok content =>
    dsimp only
    cases applyChanges content changes with
    | error e => cases e <;> exact ⟨rfl, htree⟩
    | ok updated =>
      dsimp only
      split
      · exact ⟨rfl, htree⟩
      · obtain ⟨hsame, hfile⟩ := hs.overwrite_eq updated htree
        generalize store.overwrite path updated t' = writeT at hsame hfile ⊢
        generalize store.overwrite path updated u' = writeU at hsame hfile ⊢
        obtain ⟨a, t''⟩ := writeT
        obtain ⟨b, u''⟩ := writeU
        obtain rfl : a = b := hsame
        cases a <;> exact ⟨rfl, hfile⟩

/-- What a flush did to one path. -/
def Flushed.only (path : Bytes) (f : Flushed) : Flushed :=
  ⟨f.changed.filter (·.1 = path), f.errors.filter (·.1 = path)⟩

/-- What the outcome of one path adds to a flush. -/
def Flushed.note (path : Bytes) (applied : Nat) (outcome : Except Fault Bool) (f : Flushed) : Flushed :=
  match outcome with
  | .error e => ⟨f.changed, (path, e) :: f.errors⟩
  | .ok true => ⟨(path, applied) :: f.changed, f.errors⟩
  | .ok false => f

theorem flushPaths_cons (b : Batch) (path : Bytes) (rest : List Bytes) (t : σ) :
    flushPaths store b false (path :: rest) t =
      let flushed := flushPath store path (b.pending path) t
      let others := flushPaths store b false rest flushed.2
      (others.1.note path (b.pending path).length flushed.1, others.2) := by
  rw [flushPaths]
  simp only [Bool.false_eq_true, if_false]
  generalize flushPath store path (b.pending path) t = flushed
  obtain ⟨outcome, t'⟩ := flushed
  dsimp only
  cases outcome with
  | error e => rfl
  | ok written => cases written <;> rfl

theorem Flushed.only_note_self (path : Bytes) (applied : Nat) (outcome : Except Fault Bool) (f : Flushed) :
    (f.note path applied outcome).only path = (f.only path).note path applied outcome := by
  cases outcome with
  | error e => simp [note, only]
  | ok written => cases written <;> simp [note, only]

theorem Flushed.only_note_other {path q : Bytes} (hq : q ≠ path) (applied : Nat) (outcome : Except Fault Bool)
    (f : Flushed) : (f.note q applied outcome).only path = f.only path := by
  cases outcome with
  | error e => simp [note, only, hq]
  | ok written => cases written <;> simp [note, only, hq]

/-- A flush treats one path as if it were flushed without the others. -/
theorem flushPaths_restrict (hs : store.Separable file) {path : Bytes} {a b : Batch}
    (hpending : a.pending path = b.pending path) (paths : List Bytes) {t u : σ} (h : file path t = file path u) :
    (flushPaths store a false paths t).1.only path =
        (flushPaths store b false (paths.filter (· = path)) u).1 ∧
      file path (flushPaths store a false paths t).2 =
        file path (flushPaths store b false (paths.filter (· = path)) u).2 := by
  induction paths generalizing t u with
  | nil => exact ⟨rfl, h⟩
  | cons q rest ih =>
    rw [flushPaths_cons]
    by_cases hq : q = path
    · subst hq
      obtain ⟨hsame, hfile⟩ := flushPath_eq hs h (a.pending q)
      obtain ⟨h1, h2⟩ := ih hfile
      rw [List.filter_cons_of_pos (by simp), flushPaths_cons]
      dsimp only
      rw [Flushed.only_note_self, h1, hsame, hpending]
      rw [hpending] at h2
      exact ⟨rfl, h2⟩
    · have hfile := (flushPath_other hs (Ne.symm hq) (a.pending q) t).trans h
      rw [List.filter_cons_of_neg (by simpa using hq)]
      dsimp only
      rw [Flushed.only_note_other hq]
      exact ih hfile

theorem flushPaths_absent {path : Bytes} {paths : List Bytes} (h : path ∉ paths) (b : Batch) (t : σ) :
    (flushPaths store b false paths t).1.only path = ⟨[], []⟩ := by
  induction paths generalizing t with
  | nil => rfl
  | cons q rest ih =>
    obtain ⟨hq, hrest⟩ := not_or.mp (mt List.mem_cons.mpr h)
    rw [flushPaths_cons]
    dsimp only
    rw [Flushed.only_note_other (Ne.symm hq), ih hrest]

/-- A flush comes to a path when it is through with the paths before it. -/
theorem flushPaths_reaches (store : Store σ) {path : Bytes} {paths : List Bytes} (h : paths.count path = 1)
    (b : Batch) (t : σ) :
    (flushPaths store b false paths t).1.only path =
      let before := (flushPaths store b false (paths.takeWhile (· ≠ path)) t).2
      Flushed.note path (b.pending path).length (flushPath store path (b.pending path) before).1 ⟨[], []⟩ := by
  induction paths generalizing t with
  | nil => cases h
  | cons q rest ih =>
    rw [flushPaths_cons]
    by_cases hq : q = path
    · subst hq
      have hrest : q ∉ rest := List.count_eq_zero.mp (by simpa using h)
      rw [List.takeWhile_cons_of_neg (by simp)]
      dsimp only
      rw [Flushed.only_note_self, flushPaths_absent hrest]
      rfl
    · have hrest : rest.count path = 1 := by simpa [List.count_cons, hq] using h
      rw [List.takeWhile_cons_of_pos (by simpa using hq), flushPaths_cons]
      dsimp only
      rw [Flushed.only_note_other hq, ih hrest]

theorem flush_empty (cancelled : Bool) (t : σ) : empty.flush store cancelled t = (⟨[], []⟩, t) := by
  have hpaths : empty.paths = [] := List.mergeSort_nil ..
  rw [flush, hpaths]
  rfl

/-- A batch for one path flushes that path. -/
theorem flush_singleton (path : Bytes) (changes : List Change) (t : σ) :
    flush store ⟨[(path, changes)]⟩ false t =
      let flushed := flushPath store path changes t
      (Flushed.note path changes.length flushed.1 ⟨[], []⟩, flushed.2) := by
  have hpaths : paths ⟨[(path, changes)]⟩ = [path] := List.mergeSort_singleton ..
  have hpending : pending ⟨[(path, changes)]⟩ path = changes := by simp [pending]
  rw [flush, hpaths, flushPaths_cons, hpending]
  rfl

end Edit.Batch

end Codemod
