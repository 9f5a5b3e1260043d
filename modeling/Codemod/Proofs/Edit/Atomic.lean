import Codemod.Proofs.Edit.Flush
import Codemod.Proofs.Text.Order
import Codemod.Proofs.Workspace.Recorded

namespace Codemod.Edit.Batch

open Workspace

section Collect

/-- The batch that a sequence of additions makes. -/
def collect (additions : List (Bytes × List Change)) : Batch := additions.foldl (fun b x => b.add x.1 x.2) .empty

theorem lookup_extend (path : Bytes) (changes : List Change) (l : List (Bytes × List Change)) :
    (l.map (extend path changes)).lookup path = (l.lookup path).map (· ++ changes) := by
  induction l with
  | nil => rfl
  | cons x l ih =>
    obtain ⟨q, queued⟩ := x
    by_cases hq : q = path
    · subst hq
      simp [extend]
    · have hne : (path == q) = false := beq_eq_false_iff_ne.mpr (Ne.symm hq)
      rw [List.map_cons, extend, if_neg hq, List.lookup_cons, hne, List.lookup_cons, hne]
      exact ih

theorem pending_add_self (b : Batch) (path : Bytes) (changes : List Change) :
    (b.add path changes).pending path = b.pending path ++ changes := by
  rw [add_eq]
  split
  · next hempty => rw [List.isEmpty_iff.mp hempty, List.append_nil]
  · split
    · next hsome =>
      obtain ⟨queued, hqueued⟩ := Option.isSome_iff_exists.mp hsome
      rw [pending, pending, lookup_extend, hqueued]
      rfl
    · next hnone =>
      rw [Option.not_isSome_iff_eq_none] at hnone
      rw [pending, pending, List.lookup_append, hnone]
      simp

/-- One entry for a path, with changes. -/
structure Sound (b : Batch) : Prop where
  nodup : (b.queued.map Prod.fst).Nodup
  filled : ∀ x ∈ b.queued, x.2 ≠ []

theorem mem_keys_iff (b : Batch) (path : Bytes) :
    path ∈ b.queued.map Prod.fst ↔ (b.queued.lookup path).isSome := by
  rw [List.lookup_isSome_iff]
  simp

theorem Sound.add {b : Batch} (h : b.Sound) (path : Bytes) (changes : List Change) : (b.add path changes).Sound := by
  rw [add_eq]
  split
  · exact h
  next hempty =>
  have hchanges : changes ≠ [] := fun hnil => hempty (List.isEmpty_iff.mpr hnil)
  split
  · have hkeys : Prod.fst ∘ extend path changes = Prod.fst := funext (extend_fst path changes)
    constructor
    · rw [List.map_map, hkeys]
      exact h.nodup
    · intro x hx
      obtain ⟨y, hy, rfl⟩ := List.mem_map.mp hx
      unfold extend
      split
      · simp [hchanges]
      · exact h.filled y hy
  · next hnone =>
    have hpath : path ∉ b.queued.map Prod.fst := mt (mem_keys_iff b path).mp hnone
    constructor
    · rw [List.map_append, List.nodup_append]
      refine ⟨h.nodup, by simp, ?_⟩
      intro q hq r hr hqr
      rw [hqr, List.mem_singleton.mp hr] at hq
      exact hpath hq
    · intro x hx
      rcases List.mem_append.mp hx with hx | hx
      · exact h.filled x hx
      · rw [List.mem_singleton.mp hx]
        exact hchanges

theorem Sound.mem_paths {b : Batch} (h : b.Sound) (path : Bytes) : path ∈ b.paths ↔ b.pending path ≠ [] := by
  rw [paths, (Bytes.sort_perm _).mem_iff, mem_keys_iff, pending]
  cases hlookup : b.queued.lookup path with
  | none => simp
  | some changes =>
    have hmem : (path, changes) ∈ b.queued := by
      obtain ⟨front, back, hsplit, -⟩ := List.lookup_eq_some_iff.mp hlookup
      rw [hsplit]
      simp
    simpa using h.filled _ hmem

theorem sound_collect (additions : List (Bytes × List Change)) : (collect additions).Sound := by
  have hfold {b : Batch} (hb : b.Sound) : (additions.foldl (fun b x => b.add x.1 x.2) b).Sound := by
    induction additions generalizing b with
    | nil => exact hb
    | cons x rest ih => exact ih (hb.add x.1 x.2)
  exact hfold ⟨List.nodup_nil, by simp [empty]⟩

end Collect

/-- The fault of a file whose changes cannot be applied. -/
def rejection (path : Bytes) : ApplyError → Fault
  | .conflict e => .conflict { e with path }
  | .invalid e => .within path (.misfit e)
  | .crash stop => .within path (.crash stop)

/-- What a flush may do at a path: the content that it finds, its calls, the content that it leaves
and its outcome. -/
inductive Settles (path : Bytes) (changes : List Change) :
    Option Bytes → List Call → Option Bytes → Except Fault Bool → Prop
  | unreadable {before : Option Bytes} (e : Fault) :
      Settles path changes before [.read path (.error e)] before (.error (.within ("read " ++ path) e))
  | rejected {content : Bytes} {e : ApplyError} (rejects : applyChanges content changes = .error e) :
      Settles path changes (some content) [.read path (.ok content)] (some content) (.error (rejection path e))
  | kept {content : Bytes} (same : applyChanges content changes = .ok content) :
      Settles path changes (some content) [.read path (.ok content)] (some content) (.ok false)
  | unwritable {content updated : Bytes} (applies : applyChanges content changes = .ok updated)
      (differs : content ≠ updated) (e : Fault) :
      Settles path changes (some content) [.read path (.ok content), .overwrite path updated (.error e)] (some content)
        (.error (.within ("write " ++ path) e))
  | written {content updated : Bytes} (applies : applyChanges content changes = .ok updated)
      (differs : content ≠ updated) :
      Settles path changes (some content) [.read path (.ok content), .overwrite path updated (.ok ())] (some updated)
        (.ok true)

section Run

variable {σ : Type} {store : Store σ} {content : Bytes → σ → Option Bytes}

theorem flushPaths_cancelled (store : Store σ) (b : Batch) (paths : List Bytes) (t : σ) :
    flushPaths store b true paths t = (⟨[], paths.map fun path => (path, .category .cancelled)⟩, t) := by
  induction paths with
  | nil => rfl
  | cons path rest ih => simp [flushPaths, ih]

end Run

section Report

variable {path : Bytes} {changes : List Change} {before after : Option Bytes} {calls : List Call}
  {outcome : Except Fault Bool}

/-- With this call its path has failed: it got no answer, or a content that the changes do not fit. -/
def Fails (changes : List Change) : Call → Prop
  | .read _ (.error _) => True
  | .read _ (.ok content) => ∃ e, applyChanges content changes = .error e
  | .overwrite _ _ (.error _) => True
  | .overwrite _ _ (.ok _) => False

theorem Settles.changed_iff (h : Settles path changes before calls after outcome) :
    outcome = .ok true ↔ after ≠ before := by
  cases h with
  | unreadable => simp
  | rejected => simp
  | kept => simp
  | unwritable => simp
  | written _ hdiffers => simp [hdiffers.symm]

/-- A path that did not fail has the content that its changes make. -/
theorem Settles.applied (h : Settles path changes before calls after outcome) (hfails : ∀ c ∈ calls, ¬Fails changes c) :
    ∃ content updated, before = some content ∧ applyChanges content changes = .ok updated ∧ after = some updated := by
  cases h with
  | unreadable e => exact absurd trivial (hfails (.read path (.error e)) (by simp))
  | rejected hrejects => exact absurd ⟨_, hrejects⟩ (hfails _ (List.mem_cons_self ..))
  | kept hsame => exact ⟨_, _, rfl, hsame, rfl⟩
  | @unwritable _ updated _ _ e => exact absurd trivial (hfails (.overwrite path updated (.error e)) (by simp))
  | written happlies _ => exact ⟨_, _, rfl, happlies, rfl⟩

variable {f : Flushed}

end Report

section Drain

variable {σ : Type} {store : Store σ} {content : Bytes → σ → Option Bytes}

end Drain

end Codemod.Edit.Batch
