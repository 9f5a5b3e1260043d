import Codemod.Proofs.Migration.Independence
import Mathlib.Algebra.BigOperators.Group.List.Basic
import Mathlib.Data.List.Nodup

namespace Codemod

theorem total_append (a b : List Nat) : total (a ++ b) = total a + total b := by
  induction a with
  | nil => simp [total]
  | cons n a ih => simp [total, ih, Nat.add_assoc]

theorem total_zeros {α : Type} (l : List α) : total (l.map fun _ => 0) = 0 := by
  induction l with
  | nil => rfl
  | cons x l ih => simpa [total] using ih

theorem total_eq_sum (l : List Nat) : total l = l.sum := by
  induction l with
  | nil => rfl
  | cons n l ih => rw [total, ih, List.sum_cons]

/-- Where no two have the same key, the one that is found by its key is the one that has it. -/
theorem find?_eq_some_iff_of_nodup {α : Type} {key : α → Bytes} {l : List α} (h : (l.map key).Nodup) {q : Bytes} {x : α} :
    l.find? (key · = q) = some x ↔ x ∈ l ∧ key x = q := by
  constructor
  · intro hx
    exact ⟨List.mem_of_find?_eq_some hx, by simpa using List.find?_some hx⟩
  · intro hx
    obtain ⟨hmem, rfl⟩ := hx
    cases hfind : l.find? (key · = key x) with
    | none =>
      have hnone := List.find?_eq_none.mp hfind x hmem
      simp at hnone
    | some y =>
      have hkey : key y = key x := by simpa using List.find?_some hfind
      rw [List.inj_on_of_nodup_map h (List.mem_of_find?_eq_some hfind) hmem hkey]

/-- To change the entries with a key leaves all keys as they are. -/
theorem map_key_ite {α : Type} {key : α → Bytes} {path : Bytes} {f : α → α} (hf : ∀ x, key x = path → key (f x) = path)
    (l : List α) : (l.map fun x => if key x = path then f x else x).map key = l.map key := by
  rw [List.map_map]
  apply List.map_congr_left
  intro x _
  rw [Function.comp_apply]
  split
  · next hx => exact (hf x hx).trans hx.symm
  · rfl

/-- Changing the one entry with a key adds to the sum what it adds to this entry. -/
theorem sum_map_ite {α M : Type} [AddCommMonoid M] {key : α → Bytes} {value : α → M} {path : Bytes} {f : α → α} {k : M}
    (hf : ∀ x, value (f x) = value x + k) {l : List α} (hnodup : (l.map key).Nodup) (hmem : path ∈ l.map key) :
    ((l.map fun x => if key x = path then f x else x).map value).sum = (l.map value).sum + k := by
  induction l with
  | nil => cases hmem
  | cons x l ih =>
    rw [List.map_cons, List.nodup_cons] at hnodup
    obtain ⟨hx, hrest⟩ := hnodup
    rw [List.map_cons, List.map_cons, List.sum_cons, List.map_cons, List.sum_cons]
    by_cases hself : key x = path
    · have hsame : (l.map fun y => if key y = path then f y else y) = l := by
        refine (List.map_congr_left fun y hy => ?_).trans (List.map_id _)
        exact if_neg fun heq => hx (List.mem_map.mpr ⟨y, hy, heq.trans hself.symm⟩)
      rw [if_pos hself, hf, hsame, add_right_comm]
    · have hlater : path ∈ l.map key := by simpa [Ne.symm hself] using hmem
      rw [if_neg hself, ih hrest hlater, add_assoc]

namespace Migration

open Edit Workspace

/-- The states have one entry for each file, and their edits add up to a number. -/
structure Sums (s : States) (n : Nat) : Prop where
  nodup : (s.map (·.path)).Nodup
  total : total (s.map (·.changes)) = n

namespace Sums

variable {s : States} {n : Nat}

theorem at?_of_mem (h : Sums s n) {st : FileState} (hst : st ∈ s) : s.at? st.path = some st :=
  (find?_eq_some_iff_of_nodup h.nodup).mpr ⟨hst, rfl⟩

theorem see (h : Sums s n) (path : Bytes) (kind : Kind) : Sums (s.see path kind) n := by
  unfold States.see
  split
  · exact h
  · next hany =>
    have hfresh : path ∉ s.map (·.path) := by simpa using hany
    refine ⟨?_, ?_⟩
    · rw [List.map_append, List.nodup_append]
      refine ⟨h.nodup, List.nodup_singleton _, ?_⟩
      rintro p hp q hq rfl
      obtain rfl : p = path := by simpa using hq
      exact hfresh hp
    · rw [List.map_append, total_append, h.total]
      rfl

theorem update (h : Sums s n) (path : Bytes) (kind : Kind) {f : FileState → FileState} {k : Nat}
    (hpath : ∀ x, (f x).path = x.path) (hf : ∀ x, (f x).changes = x.changes + k) :
    Sums (s.update path kind f) (n + k) := by
  have hsee := h.see path kind
  have hmem : path ∈ (s.see path kind).map (·.path) := by
    have hat := States.at?_see s path kind
    exact List.mem_map.mpr ⟨_, List.mem_of_find?_eq_some hat, States.path_of_at? hat⟩
  refine ⟨?_, ?_⟩
  · have hpaths : ((s.update path kind f).map (·.path)) = (s.see path kind).map (·.path) :=
      map_key_ite (fun x hx => (hpath x).trans hx) _
    rw [hpaths]
    exact hsee.nodup
  · rw [States.update, total_eq_sum, sum_map_ite hf hsee.nodup hmem, ← total_eq_sum, hsee.total]

theorem foldl_update {α : Type} (kind : Kind) {f : α → FileState → FileState} {k : α → Nat}
    (hpath : ∀ a x, (f a x).path = x.path) (hf : ∀ a x, (f a x).changes = x.changes + k a)
    (l : List (Bytes × α)) (h : Sums s n) :
    Sums (l.foldl (fun s x => s.update x.1 kind (f x.2)) s) (n + Codemod.total (l.map fun x => k x.2)) := by
  induction l generalizing s n with
  | nil => exact h
  | cons x l ih =>
    rw [List.foldl_cons, List.map_cons, Codemod.total, ← Nat.add_assoc]
    exact ih (h.update x.1 kind (hpath x.2) (hf x.2))

theorem record (h : Sums s n) (stage : Stage) (flushed : Batch.Flushed) :
    Sums (record stage flushed s) (n + Codemod.total (flushed.changed.map Prod.snd)) := by
  have hfailed := foldl_update stage.rule.kind (f := fun e => FileState.failAt stage (flushFault e))
    (k := fun _ => 0) (fun _ _ => rfl) (fun _ _ => rfl) flushed.errors h
  rw [total_zeros] at hfailed
  rw [record_eq]
  exact foldl_update stage.rule.kind (f := FileState.advance stage) (fun _ _ => rfl) (fun _ _ => rfl)
    flushed.changed hfailed

variable {σ : Type} {store : Store σ}

theorem visit {p : Progress σ} (h : Sums p.states n) (stage : Stage) (q : Bytes) :
    Sums (visit store stage p q).states n := by
  by_cases hp : p.cancelled = true
  · rw [Migration.visit, if_pos hp]
    exact h
  · obtain ⟨log, hvisit⟩ := visit_eq store stage q (by simpa using hp)
    rw [hvisit]
    split
    · exact h.see q stage.rule.kind
    · dsimp only
      split
      · exact (h.see q stage.rule.kind).update q stage.rule.kind (k := 0) (fun _ => rfl) (fun _ => rfl)
      · exact h.see q stage.rule.kind

theorem foldl_visit {p : Progress σ} (h : Sums p.states n) (stage : Stage) (paths : List Bytes) :
    Sums (paths.foldl (Migration.visit store stage) p).states n := by
  induction paths generalizing p with
  | nil => exact h
  | cons q paths ih => exact ih (h.visit stage q)

theorem passed {p : Progress σ} (h : Sums p.states n) (disabled : List String) (files : FileSet) (stage : Stage) :
    Sums (passed store disabled files stage p).states
      (n + Codemod.total ((writtenBy store disabled files stage p).map Prod.snd)) := by
  unfold Migration.passed writtenBy
  split
  · exact h
  · have hstart : Sums ({ p with batch := .empty } : Progress σ).states n := h
    exact (hstart.foldl_visit stage (files.files stage.rule.kind)).record stage _

/-- The edits that the stages report are those that the states of the files count. -/
theorem runStages (store : Store σ) {p : Progress σ} (h : Sums p.states n) (disabled : List String) (files : FileSet)
    (version : Version) (stages : List Stage) :
    Sums (runStages store disabled files version stages p).progress.states
      (n + Codemod.total ((runStages store disabled files version stages p).stages.map (·.changes))) := by
  induction stages generalizing p n with
  | nil => exact h
  | cons stage rest ih =>
    by_cases hp : p.cancelled = true
    · rw [Migration.runStages, if_pos hp]
      exact h
    · obtain ⟨log, hnext, hresults⟩ :=
        runStages_cons store disabled files version stage rest (by simpa using hp)
      rw [hnext, hresults, List.map_cons, Codemod.total, ← Nat.add_assoc]
      exact ih (p := { Migration.passed store disabled files stage p with log }) (h.passed disabled files stage)

end Sums

end Migration

end Codemod
