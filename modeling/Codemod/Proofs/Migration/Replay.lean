import Codemod.Proofs.Migration.FileStep
import Codemod.Proofs.Migration.Tally

namespace Codemod.Migration

open Edit Workspace

/-- Make the edits of a stage to a content that earlier stages left. -/
def replayStage (path : Bytes) (r : Bytes × List (Stage × Nat)) (stage : Stage) :
    Option (Bytes × List (Stage × Nat)) :=
  let touched := !stage.group.isEmpty && r.2.any (·.1.group = stage.group)
  (stage.edits? path r.1 touched).bind fun changes =>
    (applyChanges r.1 changes).toOption.map fun next => (next, r.2 ++ [(stage, changes.length)])

/-- Make the edits of some stages to a content, in order. This gives the content that they leave
and the number of edits of each. -/
def replay (path content : Bytes) (stages : List Stage) : Option (Bytes × List (Stage × Nat)) :=
  stages.foldlM (replayStage path) (content, [])

theorem replay_snoc (path content : Bytes) (stages : List Stage) (stage : Stage) :
    replay path content (stages ++ [stage]) =
      (replay path content stages).bind fun r => replayStage path r stage := by
  simp [replay, List.foldlM_append]

/-- What the state of a file says of the stages that wrote it. -/
structure Tallies (done : List (Stage × Nat)) (st : FileState) : Prop where
  stages : st.stages = done.map (·.1.rule.id)
  changes : st.changes = total (done.map Prod.snd)
  touched : ∀ group, group ≠ "" → st.touched.contains group = done.any (·.1.group = group)

/-- A file and its state show what some stages did, from a first file on. -/
structure Accounted (path : Bytes) (start : Option MemoryFile) (done : List (Stage × Nat)) (v : FileView) :
    Prop where
  absent : start = none → v.file = none ∧ done = []
  replayed : ∀ f, start = some f → ∃ next, replay path f.content (done.map Prod.fst) = some (next, done) ∧
    v.file = some ⟨f.path, next, f.writes + done.length⟩
  unseen : v.state = none → done = []
  state : ∀ st, v.state = some st → Tallies done st

theorem Accounted.current {path : Bytes} {start : Option MemoryFile} {done : List (Stage × Nat)} {v : FileView}
    (h : Accounted path start done v) (kind : Kind) : Tallies done (v.current path kind) := by
  unfold FileView.current
  cases hst : v.state with
  | none =>
    rw [h.unseen hst]
    exact ⟨rfl, rfl, fun _ _ => rfl⟩
  | some st => exact h.state st hst

theorem Tallies.touched_eq {done : List (Stage × Nat)} {st : FileState} (h : Tallies done st) (group : String) :
    (!group.isEmpty && st.touched.contains group) = (!group.isEmpty && done.any (·.1.group = group)) := by
  by_cases hg : group = ""
  · rw [hg]
    rfl
  · rw [h.touched group hg]

theorem Tallies.advance {done : List (Stage × Nat)} {st : FileState} (h : Tallies done st) (stage : Stage)
    (applied : Nat) : Tallies (done ++ [(stage, applied)]) (st.advance stage applied) where
  stages := by simp [FileState.advance, h.stages]
  changes := by rw [FileState.advance, h.changes, List.map_append, total_append]; rfl
  touched group hg := by
    rw [List.any_append, ← h.touched group hg]
    unfold FileState.advance
    dsimp only
    split
    · next hsame =>
      by_cases hgroup : stage.group = group
      · subst hgroup
        simpa [hg] using hsame
      · simp [hgroup]
    · simp [eq_comm]

/-- One stage keeps the account. -/
theorem Accounted.step {free : Prop} {path : Bytes} {start : Option MemoryFile} {done : List (Stage × Nat)}
    {v v' : FileView} {stage : Stage} {looks : Bool} {writes : List (Bytes × Nat)}
    (h : Accounted path start done v) (step : FileStep free path stage looks v v' writes) :
    Accounted path start (done ++ writes.map fun write => (stage, write.2)) v' := by
  have hcurrent := h.current stage.rule.kind
  have hkept {st : FileState} (hst : Tallies done st) : Accounted path start (done ++ []) ⟨v.file, some st⟩ := by
    rw [List.append_nil]
    refine ⟨h.absent, h.replayed, by simp, ?_⟩
    rintro st ⟨⟩
    exact hst
  cases step with
  | unseen => simpa using h
  | passedOver => exact hkept hcurrent
  | kept => exact hkept hcurrent
  | failed => exact hkept ⟨hcurrent.stages, hcurrent.changes, hcurrent.touched⟩
  | @written _ _ f changes next before asks apply =>
    refine ⟨?_, ?_, by simp, ?_⟩
    · intro hstart
      have hnone := (h.absent hstart).1
      rw [before] at hnone
      cases hnone
    · intro first hstart
      obtain ⟨content, hreplay, hfile⟩ := h.replayed first hstart
      obtain rfl : f = _ := Option.some.inj (before.symm.trans hfile)
      rw [hcurrent.touched_eq] at asks
      refine ⟨next, ?_, ?_⟩
      · rw [List.map_append, List.map_cons, List.map_nil, List.map_cons, List.map_nil, replay_snoc, hreplay,
          Option.bind_some, replayStage]
        dsimp only at asks apply ⊢
        rw [asks, Option.bind_some, apply]
        rfl
      · simp [MemoryFile.rewritten, Nat.add_assoc]
    · rintro st ⟨⟩
      exact hcurrent.advance stage changes.length

theorem Accounted.run {free : Prop} {looks : Stage → Bool} {path : Bytes} {start : Option MemoryFile}
    {done : List (Stage × Nat)} {v v' : FileView} {history : History} (h : Accounted path start done v)
    (run : FileRun free looks path history v v') :
    Accounted path start (done ++ history.of path) v' := by
  induction run generalizing done with
  | nil v => simpa [History.of] using h
  | cons step _ ih =>
    have hrest := ih (h.step step)
    rw [List.append_assoc] at hrest
    exact hrest

/-- The report of a run replays to its files: the edits of the stages that a file's state lists lead
from its first content to its last, one write each, and the stages report the same writes. -/
theorem run_replays (unreadable unwritable : Bytes → Option Fault) (disabled : List String) (files : FileSet)
    (hd : files.Distinct) (m : Migration) (tree : Memory)
    (hun : (run (Memory.store.refusing unreadable unwritable) disabled files m false tree).cancelled = false) :
    let store := Memory.store.refusing unreadable unwritable
    let whole := run store disabled files m false tree
    ∃ history : History, history.map Prod.fst = m.stages ∧
      whole.result.stages = history.map (fun x => x.1.report (disabled.contains x.1.rule.id) x.2) ∧
      (∀ x ∈ history, (x.2.map Prod.fst).Nodup ∧ (disabled.contains x.1.rule.id → x.2 = [])) ∧
      (∀ path, Accounted path (tree.file? path) (history.of path)
        ⟨whole.tree.file? path, whole.result.file? path⟩) ∧
      total (whole.result.stages.map (·.changes)) = total (whole.result.states.map (·.changes)) ∧
      ∀ first rest path st, m.stages = first ++ rest →
        let early := run store disabled files { m with stages := first } false tree
        early.result.file? path = some st → st.failure.isSome →
          whole.result.file? path = some st ∧ whole.tree.file? path = early.tree.file? path := by
  dsimp only
  obtain ⟨history, hstages, hreports, hidle, hruns⟩ := runStages_history hd m.stages hun
  refine ⟨history, hstages, hreports, fun x hx => ⟨?_, hidle x hx⟩, fun path => ?_, ?_, ?_⟩
  · exact FileRun.nodup (fun path => ⟨_, _, _, _, hruns path⟩) x hx
  · have hstart : Accounted path (tree.file? path) [] ⟨tree.file? path, none⟩ := by
      refine ⟨fun h => ⟨h, rfl⟩, fun f hf => ⟨f.content, rfl, hf⟩, fun _ => rfl, ?_⟩
      rintro st ⟨⟩
    exact hstart.run (hruns path)
  · have hsums : Sums [] 0 := ⟨List.nodup_nil, rfl⟩
    have hend := hsums.runStages (Memory.store.refusing unreadable unwritable)
      (p := ⟨tree, [], .empty, false, []⟩) disabled files m.version m.stages
    rw [Nat.zero_add] at hend
    exact hend.total.symm
  · intro first rest path st hsplit hst hfailure
    have happend := runStages_append (Memory.store.refusing unreadable unwritable) disabled files m.version
      first rest ⟨tree, [], .empty, false, []⟩
    rw [← hsplit] at happend
    have hun' := hun
    unfold run at hun'
    dsimp only at hun'
    rw [happend] at hun'
    obtain ⟨late, -, -, -, hlate⟩ := runStages_history hd rest hun'
    have hsame := (hlate path).eq_of_failure hst hfailure
    rw [← happend] at hsame
    refine ⟨?_, congrArg FileView.file hsame⟩
    exact (congrArg FileView.state hsame).trans hst

/-- Two stages of a group with a disabled one between them; one of two files cannot be read. -/
theorem run_replays_group :
    let unreadable q := if q = bytes "b" then some (.plain "refused") else none
    let store := Memory.store.refusing unreadable fun _ => none
    let mark : Stage := ⟨.pure "mark" "" "" .style fun _ => [.insert 0 "x"], "g"⟩
    let idle : Stage := ⟨.pure "idle" "" "" .style fun _ => [.insert 0 "i"], ""⟩
    let again (c : Context) := if c.touched then [.insert 0 "y", .insert 1 "z"] else []
    let more : Stage := ⟨.pure "more" "" "" .style again, "g"⟩
    let m : Migration := ⟨⟨1, 0, 0, []⟩, "", [mark, idle, more]⟩
    let files : FileSet := ⟨[], ["b", "a"], []⟩
    let tree := Memory.ofFiles [("a", "1"), ("b", "2")]
    let whole := run store ["idle"] files m false tree
    whole.tree.file? "a" = some ⟨"a", "yxz1", 2⟩ ∧
      whole.result.stages = [⟨"mark", 1, ["a"], false⟩, ⟨"idle", 0, [], true⟩, ⟨"more", 2, ["a"], false⟩] ∧
      ∃ history : History, history.map Prod.fst = m.stages ∧
        ∀ path, Accounted path (tree.file? path) (history.of path)
          ⟨whole.tree.file? path, whole.result.file? path⟩ := by
  intro unreadable store mark idle again more m files tree whole
  refine ⟨by cbv, by cbv, ?_⟩
  have hun : whole.cancelled = false := by cbv
  obtain ⟨history, hstages, -, -, haccounts, -⟩ := run_replays unreadable (fun _ => none) ["idle"] files
    ⟨by decide, by decide, by decide⟩ m tree hun
  exact ⟨history, hstages, haccounts⟩

end Codemod.Migration
