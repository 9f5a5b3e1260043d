import Mathlib.Data.Set.Image
import Codemod.Command.Restore
import Codemod.Proofs.Run.Discovered
import Codemod.Proofs.Workspace.Undo

namespace Codemod

open Edit Files Migration Workspace

namespace Migration

/-- The paths of the files that were changed. -/
def States.edited (s : States) : Set Bytes := {q | ∃ x ∈ s, x.path = q ∧ x.changed = true}

variable {σ : Type} {store : Store σ} {files : FileSet} {P : Set Bytes → σ → Prop} {stage : Stage}

namespace States

theorem edited_see (s : States) (path : Bytes) (kind : Kind) : (s.see path kind).edited = s.edited := by
  unfold see
  split
  · rfl
  · ext q
    simp [edited, FileState.changed]

theorem mem_edited_update {s : States} {path q : Bytes} {kind : Kind} {f : FileState → FileState} :
    q ∈ (s.update path kind f).edited ↔
      ∃ x ∈ s.see path kind, (if x.path = path then f x else x).path = q ∧
        (if x.path = path then f x else x).changed = true := by
  simp [edited, update]

/-- To give a file up changes nothing in it. -/
theorem edited_fail (s : States) (path : Bytes) (kind : Kind) (stage : String) (e : Fault) :
    (s.fail path kind stage e).edited = s.edited := by
  rw [← edited_see s path kind]
  ext q
  rw [fail, mem_edited_update]
  have hsame (x : FileState) : (if x.path = path then { x with failure := some (stage, e) } else x).path = x.path ∧
      (if x.path = path then { x with failure := some (stage, e) } else x).changed = x.changed := by
    split
    · exact ⟨rfl, rfl⟩
    · exact ⟨rfl, rfl⟩
  simp only [hsame]
  rfl

theorem exists_mem_see (s : States) (path : Bytes) (kind : Kind) : ∃ x ∈ s.see path kind, x.path = path := by
  unfold see
  split
  · next hany => simpa using hany
  · exact ⟨_, List.mem_append_right _ (List.mem_singleton_self _), rfl⟩

/-- A file with further changes is changed. -/
theorem edited_update (s : States) (path : Bytes) (kind : Kind) {f : FileState → FileState}
    (hpath : ∀ x, (f x).path = x.path) (hchanged : ∀ x, (f x).changed = true) :
    (s.update path kind f).edited = insert path s.edited := by
  rw [← edited_see s path kind]
  ext q
  rw [mem_edited_update, Set.mem_insert_iff]
  constructor
  · intro hq
    obtain ⟨x, hx, hxq, hxchanged⟩ := hq
    split at hxq
    · next hself => exact .inl (hxq.symm.trans ((hpath x).trans hself))
    · next hother =>
      rw [if_neg hother] at hxchanged
      exact .inr ⟨x, hx, hxq, hxchanged⟩
  · intro hq
    obtain hself | hother := hq
    · obtain ⟨x, hx, hxpath⟩ := s.exists_mem_see path kind
      refine ⟨x, hx, ?_⟩
      rw [if_pos hxpath, hpath, hxpath]
      exact ⟨hself.symm, hchanged x⟩
    · obtain ⟨x, hx, hxq, hxchanged⟩ := hother
      refine ⟨x, hx, ?_⟩
      split
      · exact ⟨(hpath x).trans hxq, hchanged x⟩
      · exact ⟨hxq, hxchanged⟩

end States

theorem insert_union_paths (edited : Set Bytes) (path : Bytes) (paths : List Bytes) :
    edited ∪ {q | q ∈ path :: paths} = insert path edited ∪ {q | q ∈ paths} := by
  ext q
  simp only [Set.mem_union, Set.mem_insert_iff, Set.mem_ofPred_eq, List.mem_cons]
  tauto

/-- What a flush reports as changed is changed from then on. -/
theorem edited_record (stage : Stage) (flushed : Batch.Flushed) (hpositive : ∀ x ∈ flushed.changed, 0 < x.2)
    (states : States) :
    (record stage flushed states).edited = states.edited ∪ {q | q ∈ flushed.changed.map Prod.fst} := by
  have herrors (errors : List (Bytes × Fault)) (s : States) :
      (errors.foldl (fun s x => s.update x.1 stage.rule.kind (FileState.failAt stage (flushFault x.2))) s).edited =
        s.edited := by
    induction errors generalizing s with
    | nil => rfl
    | cons x rest ih =>
      rw [List.foldl_cons, ih]
      exact States.edited_fail s x.1 stage.rule.kind stage.rule.id (flushFault x.2)
  rw [record_eq, ← herrors flushed.errors states]
  generalize flushed.errors.foldl _ states = s
  generalize flushed.changed = changed at hpositive
  induction changed generalizing s with
  | nil => simp
  | cons x rest ih =>
    obtain ⟨hx, hrest⟩ := List.forall_mem_cons.mp hpositive
    have hchanged (y : FileState) : (FileState.advance stage x.2 y).changed = true := by
      apply decide_eq_true
      exact Nat.lt_of_lt_of_le hx (Nat.le_add_left x.2 y.changes)
    have hupdate : (s.update x.1 stage.rule.kind (FileState.advance stage x.2)).edited = insert x.1 s.edited :=
      States.edited_update s x.1 stage.rule.kind (fun _ => rfl) hchanged
    rw [List.foldl_cons, ih _ hrest, hupdate, List.map_cons, insert_union_paths]

/-- What is true of a store goes by the files that were overwritten. -/
structure Follows (store : Store σ) (listed : Bytes → Prop) (P : Set Bytes → σ → Prop) : Prop where
  read : ∀ {written q t}, listed q → P written t → P written (store.read q t).2
  overwrite : ∀ {written q t} content, listed q → P written t →
    ((store.overwrite q content t).1 = .ok () ∧ P (insert q written) (store.overwrite q content t).2) ∨
      ((store.overwrite q content t).1 ≠ .ok () ∧ P written (store.overwrite q content t).2)

namespace Follows

variable {listed : Bytes → Prop} (hf : Follows store listed P) {written : Set Bytes}

include hf

theorem flushPath {q : Bytes} (hq : listed q) (changes : List Change) {t : σ} (h : P written t) :
    ((Batch.flushPath store q changes t).1 = .ok true ∧ P (insert q written) (Batch.flushPath store q changes t).2) ∨
      ((Batch.flushPath store q changes t).1 ≠ .ok true ∧ P written (Batch.flushPath store q changes t).2) := by
  have hread := hf.read hq h
  unfold Batch.flushPath
  generalize store.read q t = reading at hread
  obtain ⟨content, u⟩ := reading
  cases content with
  | error e => exact .inr ⟨nofun, hread⟩
  | ok content =>
    dsimp only
    cases applyChanges content changes with
    | error e => cases e <;> exact .inr ⟨nofun, hread⟩
    | ok updated =>
      dsimp only
      split
      · exact .inr ⟨nofun, hread⟩
      · have hwrite := hf.overwrite updated hq hread
        dsimp only at hwrite
        generalize store.overwrite q updated u = writing at hwrite
        obtain ⟨answer, v⟩ := writing
        obtain ⟨hanswer, hwritten⟩ | ⟨hanswer, hkept⟩ := hwrite
        · cases hanswer
          exact .inl ⟨rfl, hwritten⟩
        · cases answer with
          | ok _ => exact absurd rfl hanswer
          | error e => exact .inr ⟨nofun, hkept⟩

theorem flushPaths (b : Batch) (cancelled : Bool) {paths : List Bytes} (hlisted : ∀ q ∈ paths, listed q ∧ b.pending q ≠ [])
    {t : σ} (h : P written t) :
    let flushed := Batch.flushPaths store b cancelled paths t
    P (written ∪ {q | q ∈ flushed.1.changed.map Prod.fst}) flushed.2 ∧ ∀ x ∈ flushed.1.changed, 0 < x.2 := by
  cases cancelled with
  | true =>
    rw [Batch.flushPaths_cancelled]
    refine ⟨?_, fun x hx => absurd hx List.not_mem_nil⟩
    simpa using h
  | false =>
    induction paths generalizing t written with
    | nil =>
      refine ⟨?_, fun x hx => absurd hx List.not_mem_nil⟩
      simpa [Batch.flushPaths] using h
    | cons q rest ih =>
      obtain ⟨⟨hq, hwaits⟩, hrest⟩ := List.forall_mem_cons.mp hlisted
      rw [Batch.flushPaths_cons]
      obtain ⟨hdone, hnext⟩ | ⟨hdone, hnext⟩ := hf.flushPath hq (b.pending q) h
      · obtain ⟨hlater, hpositive⟩ := ih hrest hnext
        dsimp only
        rw [hdone, Batch.Flushed.note]
        refine ⟨?_, List.forall_mem_cons.mpr ⟨List.length_pos_iff.mpr hwaits, hpositive⟩⟩
        rw [List.map_cons, insert_union_paths]
        exact hlater
      · obtain ⟨hlater, hpositive⟩ := ih hrest hnext
        dsimp only
        generalize (Batch.flushPath store q (b.pending q) t).1 = outcome at hdone
        cases outcome with
        | error e => exact ⟨hlater, hpositive⟩
        | ok wrote =>
          cases wrote with
          | true => exact absurd rfl hdone
          | false => exact ⟨hlater, hpositive⟩

theorem foldl_visit {paths : List Bytes} (hlisted : ∀ q ∈ paths, listed q) {p : Progress σ} (h : P written p.tree) :
    P written (paths.foldl (visit store stage) p).tree ∧
      (paths.foldl (visit store stage) p).states.edited = p.states.edited := by
  induction paths generalizing p with
  | nil => exact ⟨h, rfl⟩
  | cons q rest ih =>
    obtain ⟨hq, hrest⟩ := List.forall_mem_cons.mp hlisted
    have hstep : P written (visit store stage p q).tree ∧ (visit store stage p q).states.edited = p.states.edited := by
      cases hp : p.cancelled with
      | true => rw [visit_of_cancelled hp]; exact ⟨h, rfl⟩
      | false =>
        obtain ⟨log, heq⟩ := visit_eq store stage q hp
        rw [heq]
        split
        · exact ⟨h, States.edited_see ..⟩
        · dsimp only
          split
          · next e _ =>
            refine ⟨hf.read hq h, ?_⟩
            rw [← States.edited_see p.states q stage.rule.kind]
            exact States.edited_fail _ q stage.rule.kind stage.rule.id e
          · exact ⟨hf.read hq h, States.edited_see ..⟩
    obtain ⟨htree, hstates⟩ := ih hrest hstep.1
    rw [List.foldl_cons]
    exact ⟨htree, hstates.trans hstep.2⟩

theorem runStage {files : FileSet} (hlisted : ∀ q, files.Lists q → listed q) {p : Progress σ}
    (h : P (written ∪ p.states.edited) p.tree) :
    P (written ∪ (Migration.runStage store files stage p).2.states.edited)
      (Migration.runStage store files stage p).2.tree := by
  let begun : Progress σ := { p with batch := .empty }
  let v := visited store files stage p
  obtain ⟨htree, hstates⟩ : P (written ∪ p.states.edited) v.tree ∧ v.states.edited = begun.states.edited :=
    hf.foldl_visit (fun q hq => hlisted q ⟨stage.rule.kind, hq⟩) h
  have hsound : v.batch.Sound := foldl_visit_sound (Batch.sound_collect []) _
  have hwaiting : ∀ q ∈ v.batch.paths, listed q ∧ v.batch.pending q ≠ [] := by
    intro q hq
    have hwaits := (hsound.mem_paths q).mp hq
    refine ⟨hlisted q ⟨stage.rule.kind, ?_⟩, hwaits⟩
    by_contra hmem
    exact hwaits (pending_foldl_visit_of_not_mem hmem)
  let flushed := Batch.flushPaths store v.batch v.cancelled v.batch.paths v.tree
  obtain ⟨hflushed, hpositive⟩ := hf.flushPaths v.batch v.cancelled hwaiting htree
  have hrecord : (record stage flushed.1 v.states).edited = p.states.edited ∪ {q | q ∈ flushed.1.changed.map Prod.fst} := by
    rw [edited_record stage flushed.1 hpositive, hstates]
  show P (written ∪ (record stage flushed.1 v.states).edited) flushed.2
  rw [hrecord, ← Set.union_assoc]
  exact hflushed

/-- A run of the stages changes the files that it reports as changed, and no others. -/
theorem runStages (disabled : List String) {files : FileSet} (hlisted : ∀ q, files.Lists q → listed q) (version : Version)
    (stages : List Stage) {p : Progress σ} (h : P (written ∪ p.states.edited) p.tree) :
    let done := (Migration.runStages store disabled files version stages p).progress
    P (written ∪ done.states.edited) done.tree := by
  induction stages generalizing p with
  | nil => exact h
  | cons stage rest ih =>
    cases hp : p.cancelled with
    | true =>
      dsimp only
      rw [Migration.runStages, if_pos hp]
      exact h
    | false =>
      have hpassed : P (written ∪ (passed store disabled files stage p).states.edited)
          (passed store disabled files stage p).tree := by
        unfold passed
        split
        · exact h
        · exact hf.runStage hlisted h
      obtain ⟨log, hnext, -⟩ := runStages_cons store disabled files version stage rest hp
      dsimp only
      rw [hnext]
      exact ih hpassed

theorem run (disabled : List String) {files : FileSet} (hlisted : ∀ q, files.Lists q → listed q) (m : Migration)
    (cancelled : Bool) {t : σ} (h : P written t) :
    let o := Migration.run store disabled files m cancelled t
    P (written ∪ States.edited o.result.states) o.tree := by
  apply hf.runStages disabled hlisted m.version m.stages
  have hnone : States.edited [] = ∅ := by
    ext q
    simp [States.edited]
  show P (written ∪ States.edited []) t
  rwa [hnone, Set.union_empty]

end Follows

end Migration

namespace Run

/-- The paths of the files that were changed. -/
def Outcomes.edited (outcomes : Outcomes) : Set Bytes := {q | ∃ o ∈ outcomes, o.path = q ∧ o.changed = true}

namespace Outcomes

theorem add_changes (o : Outcome) (s : FileState) : (o.add s).path = o.path ∧ (o.add s).changes = o.changes + s.changes := by
  unfold Outcome.add
  dsimp only
  split
  · exact ⟨rfl, rfl⟩
  · exact ⟨rfl, rfl⟩

/-- Take over what happened to one file. -/
def note (known : Outcomes) (s : FileState) : Outcomes :=
  if known.any (·.path = s.path) then known.map fun o => if o.path = s.path then o.add s else o
  else known ++ [(Outcome.start s.path s.kind).add s]

theorem add_eq (outcomes : Outcomes) (r : Migration.Result) :
    outcomes.add r = (r.files.filter fun s => s.changed || s.failure.isSome).foldl note outcomes := rfl

theorem changed_iff (o : Outcome) : o.changed = true ↔ 0 < o.changes := decide_eq_true_iff

theorem edited_note {known : Outcomes} (hpositive : ∀ o ∈ known, 0 ≤ o.changes) (s : FileState) :
    (known.note s).edited = known.edited ∪ {q | s.path = q ∧ s.changed = true} ∧ ∀ o ∈ known.note s, 0 ≤ o.changes := by
  have hchanged : s.changed = true ↔ 0 < s.changes := decide_eq_true_iff
  unfold note
  split
  · next hany =>
    obtain ⟨there, hthere, hpath⟩ : ∃ o ∈ known, o.path = s.path := by simpa using hany
    constructor
    · ext q
      simp only [edited, Set.mem_union, Set.mem_ofPred_eq, List.mem_map, changed_iff, hchanged]
      constructor
      · intro hq
        obtain ⟨_, ⟨o, ho, rfl⟩, hq, hmore⟩ := hq
        split at hq
        · next hself =>
          rw [if_pos hself, (add_changes o s).2] at hmore
          rw [(add_changes o s).1] at hq
          by_cases hs : 0 < s.changes
          · exact .inr ⟨hself.symm.trans hq, hs⟩
          · exact .inl ⟨o, ho, hq, by omega⟩
        · next hother =>
          rw [if_neg hother] at hmore
          exact .inl ⟨o, ho, hq, hmore⟩
      · intro hq
        obtain ⟨o, ho, hq, hmore⟩ | ⟨hq, hs⟩ := hq
        · refine ⟨_, ⟨o, ho, rfl⟩, ?_⟩
          split
          · rw [(add_changes o s).1, (add_changes o s).2]
            exact ⟨hq, by omega⟩
          · exact ⟨hq, hmore⟩
        · refine ⟨_, ⟨there, hthere, rfl⟩, ?_⟩
          rw [if_pos hpath, (add_changes there s).1, (add_changes there s).2]
          have hbefore := hpositive there hthere
          exact ⟨hpath.trans hq, by omega⟩
    · intro o ho
      obtain ⟨o', ho', rfl⟩ := List.mem_map.mp ho
      have hbefore := hpositive o' ho'
      split
      · rw [(add_changes o' s).2]
        omega
      · exact hbefore
  · constructor
    · ext q
      simp only [edited, Set.mem_union, Set.mem_ofPred_eq, List.mem_append, List.mem_singleton, or_and_right, exists_or,
        exists_eq_left, changed_iff, hchanged, add_changes]
      simp [Outcome.start]
    · intro o ho
      obtain ho | ho := List.mem_append.mp ho
      · exact hpositive o ho
      · rw [List.mem_singleton.mp ho, (add_changes _ s).2]
        simp [Outcome.start]

/-- The files that were changed in all are those before and those of the migration. -/
theorem edited_add {outcomes : Outcomes} (hpositive : ∀ o ∈ outcomes, 0 ≤ o.changes) (r : Migration.Result) :
    (outcomes.add r).edited = outcomes.edited ∪ States.edited r.states ∧ ∀ o ∈ outcomes.add r, 0 ≤ o.changes := by
  have hfold (l : List FileState) : ∀ known : Outcomes, (∀ o ∈ known, 0 ≤ o.changes) →
      (l.foldl note known).edited = known.edited ∪ States.edited l ∧ ∀ o ∈ l.foldl note known, 0 ≤ o.changes := by
    induction l with
    | nil =>
      intro known hknown
      refine ⟨?_, hknown⟩
      ext q
      simp [States.edited]
    | cons s rest ih =>
      intro known hknown
      obtain ⟨hnote, hnoted⟩ := edited_note hknown s
      obtain ⟨hrest, hdone⟩ := ih (known.note s) hnoted
      refine ⟨?_, hdone⟩
      rw [List.foldl_cons, hrest, hnote, Set.union_assoc]
      congr 1
      ext q
      simp [States.edited]
  rw [add_eq]
  obtain ⟨hedited, hdone⟩ := hfold (r.files.filter fun s => s.changed || s.failure.isSome) outcomes hpositive
  refine ⟨hedited.trans ?_, hdone⟩
  congr 1
  ext q
  simp only [States.edited, Set.mem_ofPred_eq, List.mem_filter, Migration.Result.files, List.mem_mergeSort, Bool.or_eq_true]
  constructor
  · intro hq
    obtain ⟨s, ⟨hs, -⟩, hfound⟩ := hq
    exact ⟨s, hs, hfound⟩
  · intro hq
    obtain ⟨s, hs, hpath, hchanged⟩ := hq
    exact ⟨s, ⟨hs, .inl hchanged⟩, hpath, hchanged⟩

end Outcomes

/-- A run changes the files that it reports as changed, and no others. -/
theorem runMigrations_follows {P : Set Bytes → Disk × FileSystem → Prop} {listed : Bytes → Prop}
    (hf : Migration.Follows Disk.store listed P) (settings : Settings) {files : FileSet}
    (hlisted : ∀ q, files.Lists q → listed q)
    (migrations : List Migration) {p : Progress} (hpositive : ∀ o ∈ p.outcomes, 0 ≤ o.changes)
    (h : P p.outcomes.edited (p.disk, p.files)) :
    let done := runMigrations settings files migrations p
    P done.outcomes.edited (done.disk, done.files) := by
  induction migrations generalizing p with
  | nil => exact h
  | cons m rest ih =>
    let o := Migration.run Disk.store (settings.disabled.getD []) files m p.cancelled (p.disk, p.files)
    have hrun : P (p.outcomes.edited ∪ States.edited o.result.states) o.tree := hf.run _ hlisted m p.cancelled h
    obtain ⟨hedited, hmore⟩ := Outcomes.edited_add hpositive o.result
    rw [← hedited] at hrun
    dsimp only
    rw [runMigrations]
    split
    · exact hrun
    · exact ih hmore hrun

/-- The path to a name in a directory. -/
def pathTo (x : Location × Bytes) : Bytes := FileSystem.pathOf (x.1 ++ [x.2])

/-- The disk of a run, after it overwrote files of the set. -/
structure Ran (fs₀ : FileSystem) (start : Location) (files : FileSet) (written : Set Bytes) (t : Disk × FileSystem) :
    Prop where
  writes : t.1.dryRun = false
  readable : t.1.Readable t.2
  backs : ∀ path, t.1.policy.target? path = some (path ++ BackupPolicy.suffix)
  listed : ∀ q ∈ written, files.Lists q
  wrote : ∃ saved, written = pathTo '' saved ∧ Wrote fs₀ start saved t.2

theorem ran_follows {fs₀ : FileSystem} {start : Location} {files : FileSet} (htree : fs₀.Plain start) (hbare : Unbacked fs₀)
    (hfiles : ∀ q, files.Lists q → ∃ up name data, q = FileSystem.pathOf (up ++ [name]) ∧
      fs₀.entry? (up ++ [name]) = some (.file data)) :
    Migration.Follows Disk.store files.Lists (Ran fs₀ start files) where
  read {written q t} _ h := by
    have hpolicy : (Disk.store.read q t).2.1.policy = t.1.policy := Disk.read_keeps.1
    have hdry : (Disk.store.read q t).2.1.dryRun = t.1.dryRun := Disk.read_keeps.2.1
    refine ⟨hdry.trans h.writes, h.readable.read false q, fun path => ?_, h.listed, h.wrote⟩
    rw [hpolicy]
    exact h.backs path
  overwrite {written q t} content hq h := by
    obtain ⟨up, name, data, rfl, hfile⟩ := hfiles q hq
    obtain ⟨saved, rfl, hwrote⟩ := h.wrote
    have hpoints : Path.Points start (FileSystem.pathOf (up ++ [name])) up name :=
      htree.points_pathOf (by rw [hfile]; simp)
    generalize hrun : Disk.store.overwrite (FileSystem.pathOf (up ++ [name])) content t = answer
    obtain ⟨result, d', fs'⟩ := answer
    obtain ⟨hpolicy, hdry, -⟩ := Disk.overwrite_cases hrun
    have hwrites := hdry.trans h.writes
    have hreadable : d'.Readable fs' := h.readable.overwrite hrun
    have hbacks (path : Bytes) : d'.policy.target? path = some (path ++ BackupPolicy.suffix) := by
      rw [hpolicy]
      exact h.backs path
    obtain ⟨hok, hsaved⟩ | ⟨hfailed, hsaved⟩ := hwrote.overwrite hbare hpoints hfile h.writes h.readable (h.backs _) hrun
    · have himage : insert (FileSystem.pathOf (up ++ [name])) (pathTo '' saved) = pathTo '' insert (up, name) saved := by
        rw [Set.image_insert_eq]
        rfl
      refine .inl ⟨hok, hwrites, hreadable, hbacks, fun q hq' => ?_, insert (up, name) saved, himage, hsaved⟩
      obtain heq | hbefore := Set.mem_insert_iff.mp hq'
      · exact heq ▸ hq
      · exact h.listed q hbefore
    · exact .inr ⟨hfailed, hwrites, hreadable, hbacks, h.listed, saved, rfl, hsaved⟩

section Undo

variable {fs : FileSystem} {start : Location} {registry : Registry} {cancelled : Bool} {o : Options}

/-- The paths that a run reports as changed. -/
def Finished.changed (f : Finished) : List Bytes := (f.result.elim [] Result.changed).map Outcome.path

theorem mem_changed_finish {settings : Settings} {current target : Version} {files : FileSet} {p : Progress} {q : Bytes} :
    q ∈ (finish settings current target files p).changed ↔ q ∈ p.outcomes.edited := by
  have hsame (x : Outcome) : (finishOutcome p.disk x).changed = x.changed := rfl
  simp only [Finished.changed, finish, Option.elim_some, Result.changed, List.mem_map, List.mem_filter, List.mem_mergeSort,
    Outcomes.edited, Set.mem_ofPred_eq]
  constructor
  · intro hq
    obtain ⟨_, ⟨⟨x, hx, rfl⟩, hchanged⟩, hpath⟩ := hq
    exact ⟨x, hx, hpath, (hsame x).symm.trans hchanged⟩
  · intro hq
    obtain ⟨x, hx, hpath, hchanged⟩ := hq
    exact ⟨finishOutcome p.disk x, ⟨⟨x, hx, rfl⟩, (hsame x).trans hchanged⟩, hpath⟩

theorem Meant.exists_file {arg q : Bytes} (h : Meant fs arg q) :
    ∃ up name data, q = FileSystem.pathOf (up ++ [name]) ∧ fs.entry? (up ++ [name]) = some (.file data) := by
  obtain ⟨here, -, ⟨-, up, name, data, hq, -, hfile⟩ | ⟨⟨data, hfile⟩, hq⟩⟩ := h
  · exact ⟨up, name, data, hq, hfile⟩
  · obtain hnil | ⟨up, name, hconcat⟩ := List.eq_nil_or_concat here
    · rw [hnil] at hfile
      cases hfile
    · rw [List.concat_eq_append] at hconcat
      exact ⟨up, name, data, hconcat ▸ hq, hconcat ▸ hfile⟩

/-- The files that a run reports as changed are saved, and all else is as it was. -/
theorem run_wrote (registry : Registry) (cancelled : Bool) (htree : fs.Plain start) (hbare : Unbacked fs)
    (hroot : rootDirectory fs o = .ok (FileSystem.pathOf start)) (hdry : o.settings.dryRun = false)
    (henabled : o.settings.backupPolicy.enabled = true) (hmode : o.settings.backupPolicy.mode ≠ "none")
    (hargs : ∀ arg ∈ o.targets, ∃ here, fs.locate .thing arg = .ok here) :
    let done := run fs registry cancelled o
    ∃ saved, Wrote fs start saved done.files ∧
      (∀ q, q ∈ done.changed ↔ ∃ up name, (up, name) ∈ saved ∧ q = FileSystem.pathOf (up ++ [name])) ∧
      ∀ q ∈ done.changed, ∃ arg ∈ o.targets, Meant fs arg q := by
  intro done
  have hstopped (h : done.result = none ∧ done.files = fs) : ∃ saved, Wrote fs start saved done.files ∧
      (∀ q, q ∈ done.changed ↔ ∃ up name, (up, name) ∈ saved ∧ q = FileSystem.pathOf (up ++ [name])) ∧
      ∀ q ∈ done.changed, ∃ arg ∈ o.targets, Meant fs arg q := by
    have hchanged : done.changed = [] := by
      rw [Finished.changed, h.1]
      rfl
    rw [h.2, hchanged]
    refine ⟨∅, Wrote.nothing htree, fun q => ?_, fun q hq => absurd hq List.not_mem_nil⟩
    simp
  cases hplan : plan fs registry o with
  | error e => exact hstopped (by simp only [done, run, hplan, and_self])
  | ok planned =>
    obtain ⟨current, migrations⟩ := planned
    cases hlast : migrations.getLast? with
    | none => exact hstopped (by simp only [done, run, hplan, hlast, and_self])
    | some last =>
      cases hdiscover : discover fs cancelled o with
      | error e => exact hstopped (by simp only [done, run, hplan, hlast, hdiscover, and_self])
      | ok files =>
        have hmeant (q : Bytes) (hq : files.Lists q) := discover_lists htree hroot hargs hdiscover hq
        obtain ⟨log, hdone⟩ : ∃ log, done = finish o.settings current last.version files (runMigrations o.settings files
            migrations ⟨.start o.settings.dryRun o.settings.backupPolicy, fs, [], [], cancelled, none, log⟩) := by
          simp only [done, run, hplan, hlast, hdiscover]
          exact ⟨_, rfl⟩
        let begun : Progress := ⟨.start o.settings.dryRun o.settings.backupPolicy, fs, [], [], cancelled, none, log⟩
        have hbegun : Ran fs start files begun.outcomes.edited (begun.disk, begun.files) := by
          have hnone : begun.outcomes.edited = ∅ := by
            ext q
            simp [begun, Outcomes.edited]
          refine ⟨hdry, Disk.readable_start _ _ fs, fun path => ?_, fun q hq => ?_, ∅, by rw [hnone, Set.image_empty], Wrote.nothing htree⟩
          · exact (if_pos henabled).trans (BackupPolicy.place?_eq hmode path)
          · rw [hnone] at hq
            cases hq
        have hthere : ∀ q, files.Lists q → ∃ up name data, q = FileSystem.pathOf (up ++ [name]) ∧
            fs.entry? (up ++ [name]) = some (.file data) := by
          intro q hq
          obtain ⟨arg, -, harg⟩ := hmeant q hq
          exact harg.exists_file
        have hfollows : Migration.Follows Disk.store files.Lists (Ran fs start files) := ran_follows htree hbare hthere
        have hran : Ran fs start files (runMigrations o.settings files migrations begun).outcomes.edited _ :=
          runMigrations_follows hfollows o.settings (fun q hq => hq) migrations (fun _ h => absurd h List.not_mem_nil) hbegun
        obtain ⟨saved, hsaved, hwrote⟩ := hran.wrote
        have hchanged (q : Bytes) : q ∈ done.changed ↔ q ∈ pathTo '' saved := by
          rw [hdone, mem_changed_finish, ← hsaved]
        have hfiles : done.files = (runMigrations o.settings files migrations begun).files := by
          rw [hdone]
          rfl
        rw [hfiles]
        refine ⟨saved, hwrote, fun q => ?_, fun q hq => ?_⟩
        · rw [hchanged]
          constructor
          · intro hq
            obtain ⟨x, hx, hq⟩ := hq
            exact ⟨x.1, x.2, hx, hq.symm⟩
          · intro hq
            obtain ⟨up, name, hx, hq⟩ := hq
            exact ⟨(up, name), hx, hq.symm⟩
        · rw [hchanged, ← hsaved] at hq
          exact hmeant q (hran.listed q hq)

theorem pathTo_inj (htree : fs.Plain start) {up up' : Location} {name name' : Bytes} (h : fs.entry? (up ++ [name]) ≠ none)
    (h' : fs.entry? (up' ++ [name']) ≠ none) (hpath : pathTo (up, name) = pathTo (up', name')) :
    up' = up ∧ name' = name := by
  have hpoints : Path.Points start (pathTo (up, name)) up' name' := hpath ▸ htree.points_pathOf h'
  exact (htree.points_pathOf h).unique hpoints

/-- A file in a directory that one of the arguments leads to, or below it where backups are searched. -/
def Covered (fs : FileSystem) (args : List Bytes) (q : Bytes) : Prop :=
  ∃ arg ∈ args, ∃ here, fs.locate .thing arg = .ok here ∧ fs.entry? here = some .directory ∧ Reached fs here q

section Find

variable {fs' : FileSystem} {saved : Set (Location × Bytes)} (htree : fs.Plain start) (hbare : Unbacked fs)
  (hwrote : Wrote fs start saved fs')

include htree hbare hwrote

/-- For one argument the saved files are found that it covers. -/
theorem find_saved {arg : Bytes} {here : Location} (hlocate : fs.locate .thing arg = .ok here) :
    ∃ found, Backup.find fs' false arg Command.unsearched = .ok found ∧
      (∀ p ∈ found, ∃ up name, Path.Points start p up name ∧ (up, name) ∈ saved ∧ Covered fs [arg] (pathTo (up, name))) ∧
      ∀ up name, (up, name) ∈ saved → Covered fs [arg] (pathTo (up, name)) → ∃ p ∈ found, Path.Points start p up name := by
  have hthere := hwrote.locate htree hbare hlocate
  obtain ⟨-, -, hentry⟩ := htree.along_of_locate rfl hlocate
  have hspelled {up : Location} {name : Bytes} (hmem : (up, name) ∈ saved) : Spelled name := by
    obtain ⟨first, -, -, hfirst, -⟩ := (hwrote.saved up name hmem).file
    exact (htree.named up name (by rw [hfirst]; simp)).1
  cases hkind : fs.entry? here with
  | none => exact absurd hkind hentry
  | some entry =>
    cases entry with
    | link target => exact absurd hkind (htree.unlinked _ target)
    | file data =>
      obtain ⟨up, name, rfl⟩ : ∃ up name, here = up ++ [name] := by
        obtain hnil | ⟨up, name, hconcat⟩ := List.eq_nil_or_concat here
        · rw [hnil] at hkind
          cases hkind
        · exact ⟨up, name, hconcat.trans (List.concat_eq_append ..)⟩
      obtain ⟨data', hdata'⟩ := hwrote.there hbare hkind
      refine ⟨[], Backup.find_file hwrote.plain hthere hdata' (hbare.named up name data hkind) Command.unsearched,
        fun p hp => absurd hp List.not_mem_nil, fun up' name' hmem hcovered => ?_⟩
      obtain ⟨arg', harg', here', hlocate', hdirectory, -⟩ := hcovered
      rw [List.mem_singleton.mp harg', hlocate] at hlocate'
      cases hlocate'
      rw [hkind] at hdirectory
      cases hdirectory
    | directory =>
      obtain ⟨found, hfind, hsound, hcomplete⟩ :=
        Backup.find_directory hwrote.plain hthere (hwrote.directory hbare hkind) Command.unsearched
      refine ⟨found, hfind, fun p hp => ?_, fun up name hmem hcovered => ?_⟩
      · obtain ⟨up, last, data, hbelow, hpoints, hsuffix, hfile⟩ := hsound p hp
        obtain ⟨name, rfl, hmem⟩ := hwrote.saved_of_suffix hbare hfile hsuffix
        obtain ⟨first, -, -, hfirst, -⟩ := (hwrote.saved up name hmem).file
        refine ⟨up, name, hpoints.of_append (hspelled hmem), hmem, arg, List.mem_singleton_self _, here, hlocate, hkind, ?_⟩
        exact ⟨up, name, first, rfl, hbelow, hfirst⟩
      · obtain ⟨arg', harg', here', hlocate', -, up', name', data, hpath, hbelow, hfile⟩ := hcovered
        rw [List.mem_singleton.mp harg', hlocate] at hlocate'
        cases hlocate'
        obtain ⟨first, -, kept, hfirst, -, hkept, -⟩ := (hwrote.saved up name hmem).file
        obtain ⟨rfl, rfl⟩ := pathTo_inj htree (by rw [hfirst]; simp) (by rw [hfile]; simp) hpath
        obtain ⟨p, hp, hpoints⟩ := hcomplete up' (name' ++ BackupPolicy.suffix) kept hbelow (List.suffix_append ..) hkept
        exact ⟨p, hp, hpoints.of_append (hspelled hmem)⟩

/-- For all arguments together too. -/
theorem backedUp_saved (s : Command.Session) (hfiles : s.files = fs') (hlive : s.cancelled = false) {args : List Bytes}
    (hargs : ∀ arg ∈ args, ∃ here, fs.locate .thing arg = .ok here) :
    ∃ found, Command.backedUp s args = .ok found ∧
      (∀ p ∈ found, ∃ up name, Path.Points start p up name ∧ (up, name) ∈ saved ∧ Covered fs args (pathTo (up, name))) ∧
      ∀ up name, (up, name) ∈ saved → Covered fs args (pathTo (up, name)) → ∃ p ∈ found, Path.Points start p up name := by
  suffices hall : ∃ lists, args.mapM (fun arg => Backup.find fs' false arg Command.unsearched) = .ok lists ∧
      (∀ p ∈ lists.flatten, ∃ up name,
        Path.Points start p up name ∧ (up, name) ∈ saved ∧ Covered fs args (pathTo (up, name))) ∧
      ∀ up name, (up, name) ∈ saved → Covered fs args (pathTo (up, name)) →
        ∃ p ∈ lists.flatten, Path.Points start p up name by
    obtain ⟨lists, hlists, hfound⟩ := hall
    refine ⟨lists.flatten, ?_, hfound⟩
    rw [Command.backedUp, hfiles, hlive, hlists]
    rfl
  induction args with
  | nil =>
    refine ⟨[], rfl, fun p hp => absurd hp List.not_mem_nil, fun up name _ hcovered => ?_⟩
    obtain ⟨arg, harg, -⟩ := hcovered
    exact absurd harg List.not_mem_nil
  | cons arg rest ih =>
    obtain ⟨⟨here, hhere⟩, hrest⟩ := List.forall_mem_cons.mp hargs
    obtain ⟨found, hfind, hsound, hcomplete⟩ := find_saved htree hbare hwrote hhere
    obtain ⟨lists, hlists, hsounds, hcompletes⟩ := ih hrest
    refine ⟨found :: lists, ?_, fun p hp => ?_, fun up name hmem hcovered => ?_⟩
    · rw [List.mapM_cons, hfind, hlists]
      rfl
    · obtain hp | hp := List.mem_append.mp (List.flatten_cons ▸ hp)
      · obtain ⟨up, name, hpoints, hmem, arg', harg', hcovered⟩ := hsound p hp
        exact ⟨up, name, hpoints, hmem, arg', List.mem_singleton.mp harg' ▸ List.mem_cons_self .., hcovered⟩
      · obtain ⟨up, name, hpoints, hmem, arg', harg', hcovered⟩ := hsounds p hp
        exact ⟨up, name, hpoints, hmem, arg', List.mem_cons_of_mem _ harg', hcovered⟩
    · obtain ⟨arg', harg', hreached⟩ := hcovered
      rw [List.flatten_cons]
      obtain heq | harg' := List.mem_cons.mp harg'
      · obtain ⟨p, hp, hpoints⟩ := hcomplete up name hmem ⟨arg', List.mem_singleton.mpr heq, hreached⟩
        exact ⟨p, List.mem_append_left _ hp, hpoints⟩
      · obtain ⟨p, hp, hpoints⟩ := hcompletes up name hmem ⟨arg', harg', hreached⟩
        exact ⟨p, List.mem_append_right _ hp, hpoints⟩

end Find

/-- An update can be undone for the arguments it was given. The search for backups finds the changed files that
are in directories given as arguments; these are all of them unless a changed file was itself an argument and is in
none of the directories. Restoring all of them brings back what every place of the tree showed before. -/
theorem update_undone (s : Command.Session) (registry : Registry) (cancelled : Bool) (htree : fs.Plain start)
    (hbare : Unbacked fs) (hroot : rootDirectory fs o = .ok (FileSystem.pathOf start)) (hdry : o.settings.dryRun = false)
    (henabled : o.settings.backupPolicy.enabled = true) (hmode : o.settings.backupPolicy.mode ≠ "none")
    (hargs : ∀ arg ∈ o.targets, ∃ here, fs.locate .thing arg = .ok here) :
    let done := run fs registry cancelled o
    let after : Command.Session := { s with files := done.files, cancelled := false }
    ∃ found, Command.backedUp after o.targets = .ok found ∧
      (∀ q, q ∈ found.map done.files.resolve? ↔ ∃ p ∈ done.changed, Covered fs o.targets p ∧ q = some p) ∧
      ((∀ arg ∈ o.targets, ∀ here data, fs.locate .thing arg = .ok here → fs.entry? here = some (.file data) →
          FileSystem.pathOf here ∈ done.changed → Covered fs o.targets (FileSystem.pathOf here)) →
        (∀ q, q ∈ found.map done.files.resolve? ↔ ∃ p ∈ done.changed, q = some p) ∧
        ∀ said here, (Command.restoreAll after said found).files.shown here = fs.shown here) := by
  intro done after
  obtain ⟨saved, hwrote, hchanged, hmeant⟩ :=
    run_wrote registry cancelled htree hbare hroot hdry henabled hmode hargs
  obtain ⟨found, hfound, hsound, hcomplete⟩ := backedUp_saved htree hbare hwrote after rfl rfl hargs
  have hresolve {p : Bytes} {up : Location} {name : Bytes} (hpoints : Path.Points start p up name)
      (hmem : (up, name) ∈ saved) :
      done.files.resolve? p = some (pathTo (up, name)) := by
    obtain ⟨-, data, -, -, hdata, -⟩ := (hwrote.saved up name hmem).file
    have hthere : done.files.entry? (up ++ [name]) ≠ none := by
      rw [hdata]
      simp
    rw [FileSystem.resolve?, hwrote.plain.locateWith_points hpoints (hwrote.plain.parent up name hthere),
      FileSystem.follow_file .thing (hwrote.plain.named up name hthere).2 [] hdata]
    rfl
  have hmatch (q : Option Bytes) :
      q ∈ found.map done.files.resolve? ↔ ∃ p ∈ done.changed, Covered fs o.targets p ∧ q = some p := by
    constructor
    · intro hq
      obtain ⟨p, hp, rfl⟩ := List.mem_map.mp hq
      obtain ⟨up, name, hpoints, hmem, hcovered⟩ := hsound p hp
      exact ⟨pathTo (up, name), (hchanged _).mpr ⟨up, name, hmem, rfl⟩, hcovered, hresolve hpoints hmem⟩
    · intro hq
      obtain ⟨p, hp, hcovered, rfl⟩ := hq
      obtain ⟨up, name, hmem, rfl⟩ := (hchanged p).mp hp
      obtain ⟨p, hp, hpoints⟩ := hcomplete up name hmem hcovered
      exact List.mem_map.mpr ⟨p, hp, hresolve hpoints hmem⟩
  refine ⟨found, hfound, hmatch, fun hfiles => ?_⟩
  have hall : ∀ p ∈ done.changed, Covered fs o.targets p := by
    intro p hp
    obtain ⟨arg, harg, here, hhere, ⟨hdirectory, hreached⟩ | ⟨⟨data, hfile⟩, rfl⟩⟩ := hmeant p hp
    · exact ⟨arg, harg, here, hhere, hdirectory, hreached⟩
    · exact hfiles arg harg here data hhere hfile hp
  refine ⟨fun q => (hmatch q).trans ?_, fun said here => ?_⟩
  · exact exists_congr fun p => and_congr_right fun hp => and_iff_right (hall p hp)
  · have hpaths : ∀ p ∈ found, ∃ up name first, Path.Points start p up name ∧
        fs.entry? (up ++ [name]) = some (.file first) ∧ ¬255 < (name ++ BackupPolicy.suffix).length := by
      intro p hp
      obtain ⟨up, name, hpoints, hmem, -⟩ := hsound p hp
      obtain ⟨first, -, -, hfirst, -⟩ := (hwrote.saved up name hmem).file
      have hshort := (hwrote.saved up name hmem).short
      rw [List.length_append] at hshort
      exact ⟨up, name, first, hpoints, hfirst, by omega⟩
    have hnone : saved \ {x | ∃ p ∈ found, Path.Points start p x.1 x.2} = ∅ := by
      rw [Set.sdiff_eq_empty]
      intro x hx
      obtain ⟨up, name⟩ := x
      have hcovered := hall (pathTo (up, name)) ((hchanged _).mpr ⟨up, name, hx, rfl⟩)
      exact hcomplete up name hx hcovered
    have hrestored : Wrote fs start ∅ (Command.restoreAll after said found).files := by
      rw [← hnone]
      exact Wrote.restoreAll hbare hpaths ⟨after.files, 0, [], []⟩ hwrote
    exact hrestored.shown_of_empty here

/-- A sheet in a directory. -/
def sheet : FileSystem :=
  ⟨[([bytes "src"], .directory), ([bytes "src", bytes "b.css"], .file ⟨"x", 0o644, 0⟩)], 0, some [], false⟩

theorem sheet_entry {here : Location} {entry : Entry} (h : sheet.entry? here = some entry) :
    (here = [] ∨ here = [] ++ [bytes "src"]) ∧ entry = .directory ∨
      here = [bytes "src"] ++ [bytes "b.css"] ∧ entry = .file ⟨"x", 0o644, 0⟩ := by
  by_cases hroot : here = []
  · subst hroot
    exact .inl ⟨.inl rfl, (Option.some.inj h).symm⟩
  · by_cases hsrc : here = [bytes "src"]
    · subst hsrc
      exact .inl ⟨.inr rfl, (Option.some.inj h).symm⟩
    · by_cases hfile : here = [bytes "src", bytes "b.css"]
      · subst hfile
        exact .inr ⟨rfl, (Option.some.inj h).symm⟩
      · have hnone : sheet.entries.lookup here = none := by
          simp [sheet, List.lookup_cons, beq_false_of_ne hsrc, beq_false_of_ne hfile]
        rw [FileSystem.entry?, if_neg (by simpa using hroot), hnone] at h
        cases h

theorem sheet_place {up : Location} {name : Bytes} {entry : Entry} (h : sheet.entry? (up ++ [name]) = some entry) :
    up = [] ∧ name = bytes "src" ∧ entry = .directory ∨
      up = [bytes "src"] ∧ name = bytes "b.css" ∧ entry = .file ⟨"x", 0o644, 0⟩ := by
  obtain ⟨hplace | hplace, hentry⟩ | ⟨hplace, hentry⟩ := sheet_entry h
  · exact absurd hplace (by simp)
  · obtain ⟨rfl, rfl⟩ := place_inj hplace
    exact .inl ⟨rfl, rfl, hentry⟩
  · obtain ⟨rfl, rfl⟩ := place_inj hplace
    exact .inr ⟨rfl, rfl, hentry⟩

theorem sheet_plain : sheet.Plain [] where
  workplace := rfl
  start := rfl
  parent up name hthere := by
    obtain ⟨entry, hentry⟩ := Option.ne_none_iff_exists'.mp hthere
    obtain ⟨rfl, -, -⟩ | ⟨rfl, -, -⟩ := sheet_place hentry
    · rfl
    · rfl
  named up name hthere := by
    obtain ⟨entry, hentry⟩ := Option.ne_none_iff_exists'.mp hthere
    obtain ⟨-, rfl, -⟩ | ⟨-, rfl, -⟩ := sheet_place hentry
    · exact ⟨⟨by decide, by decide, by decide⟩, by decide, by decide, by decide⟩
    · exact ⟨⟨by decide, by decide, by decide⟩, by decide, by decide, by decide⟩
  unlinked here target hlink := by
    obtain ⟨-, hentry⟩ | ⟨-, hentry⟩ := sheet_entry hlink
    · cases hentry
    · cases hentry

theorem sheet_unbacked : Unbacked sheet where
  named up name data hfile := by
    obtain ⟨-, -, hentry⟩ | ⟨-, rfl, -⟩ := sheet_place hfile
    · cases hentry
    · decide
  clear up name data hfile := by
    obtain ⟨-, -, hentry⟩ | ⟨rfl, rfl, -⟩ := sheet_place hfile
    · cases hentry
    · rfl

/-- One sheet is rewritten in a directory, which is searched for backups afterwards. -/
theorem update_undone_directory :
    let rewrites : Registry := ⟨[⟨⟨2, 0, 0, []⟩, "", [giving (.ok [.replace 0 "x" "y"])]⟩]⟩
    let o : Options := ⟨["src"], [], [], false, { Settings.empty with fromVersion := "1.0.0" }⟩
    let done := run sheet rewrites false o
    let after : Command.Session := ⟨done.files, [], [], false, false, none, .plain, false, .unreleased⟩
    ∃ found, Command.backedUp after ["src"] = .ok found ∧
      (∀ q, q ∈ found.map done.files.resolve? ↔ ∃ p ∈ done.changed, q = some p) ∧
      ∀ said here, (Command.restoreAll after said found).files.shown here = sheet.shown here := by
  intro rewrites o done after
  have hsrc : sheet.locate .thing "src" = .ok [bytes "src"] := by cbv
  have htargets : o.targets = [bytes "src"] := rfl
  have hargs : ∀ arg ∈ o.targets, sheet.locate .thing arg = .ok [bytes "src"] := by
    intro arg harg
    rw [htargets] at harg
    exact List.mem_singleton.mp harg ▸ hsrc
  obtain ⟨found, hfound, -, hrestored⟩ := update_undone after rewrites false sheet_plain sheet_unbacked
    (show rootDirectory sheet o = .ok (FileSystem.pathOf []) from rfl) rfl rfl (by decide)
    fun arg harg => ⟨_, hargs arg harg⟩
  refine ⟨found, hfound, hrestored fun arg harg here data hhere hfile => ?_⟩
  rw [hargs arg harg] at hhere
  cases hhere
  cases hfile

end Undo

end Run

end Codemod
