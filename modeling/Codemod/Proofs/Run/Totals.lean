import Codemod.Proofs.Migration.Idle
import Codemod.Proofs.Run.Remembered

namespace Codemod

open Edit Files Migration Workspace

namespace Migration

/-- Stages that are not cancelled are all reported, in order, and no fault is. -/
theorem runStages_complete {σ : Type} (store : Store σ) (disabled : List String) (files : FileSet) (version : Version)
    (stages : List Stage) {p : Migration.Progress σ}
    (hun : (runStages store disabled files version stages p).progress.cancelled = false) :
    let done := runStages store disabled files version stages p
    (done.stages.map fun s => (s.id, s.skipped)) = (stages.map fun s => (s.rule.id, disabled.contains s.rule.id)) ∧
      done.fault = none := by
  induction stages generalizing p with
  | nil => exact ⟨rfl, rfl⟩
  | cons stage rest ih =>
    have hp : ¬p.cancelled = true := by simp [runStages_cancelled hun]
    dsimp only
    rw [runStages, if_neg hp] at hun ⊢
    dsimp only at hun ⊢
    split at hun
    · next hdisabled =>
      obtain ⟨hstages, hfault⟩ := ih hun
      rw [if_pos hdisabled, List.map_cons, List.map_cons, hstages, hdisabled]
      exact ⟨rfl, hfault⟩
    · next henabled =>
      obtain ⟨hstages, hfault⟩ := ih hun
      rw [if_neg henabled, List.map_cons, List.map_cons, hstages, Bool.eq_false_of_not_eq_true henabled]
      exact ⟨rfl, hfault⟩

end Migration

namespace Migration.Result

/-- The state of a file, if the migration changed it or gave it up. -/
def noted? (r : Result) (path : Bytes) : Option FileState := (r.file? path).filter fun s => s.changed || s.failure.isSome

/-- The number of edits in a file. -/
def changesIn (r : Result) (path : Bytes) : Int := (r.file? path).elim 0 fun s => s.changes

/-- Why a file was given up. -/
def failureIn (r : Result) (path : Bytes) : Option Fault := (r.file? path).bind fun s => s.failure.map Prod.snd

end Migration.Result

namespace Run

/-- The sum does not depend on the entries that add nothing to it. -/
theorem sum_map_filter {α : Type} {value : α → Int} {keep : α → Bool} {l : List α}
    (h : ∀ x ∈ l, keep x = false → value x = 0) : ((l.filter keep).map value).sum = (l.map value).sum := by
  induction l with
  | nil => rfl
  | cons x l ih =>
    obtain ⟨hx, hrest⟩ := List.forall_mem_cons.mp h
    rw [List.filter_cons, List.map_cons, List.sum_cons, ← ih hrest]
    cases hkeep : keep x with
    | true => rw [if_pos rfl, List.map_cons, List.sum_cons]
    | false => rw [if_neg Bool.false_ne_true, hx hkeep, Int.zero_add]

theorem sumOf_eq_sum (values : List Int) : sumOf values = values.sum := List.sum_eq_foldl.symm

theorem sum_cast {α : Type} (value : α → Nat) (l : List α) :
    (l.map fun x => (value x : Int)).sum = (total (l.map value) : Nat) := by
  rw [total_eq_sum, Nat.cast_list_sum, List.map_map]
  rfl

namespace Outcomes

/-- The outcome of a file. -/
def at? (outcomes : Outcomes) (path : Bytes) : Option Outcome := outcomes.find? (·.path = path)

/-- A file has no more than one outcome. -/
def Single (outcomes : Outcomes) : Prop := (outcomes.map Outcome.path).Nodup

/-- The number of edits in a file so far. -/
def changesIn (outcomes : Outcomes) (path : Bytes) : Int := (outcomes.at? path).elim 0 Outcome.changes

/-- Why a file was given up first. -/
def failureIn (outcomes : Outcomes) (path : Bytes) : Option Fault := (outcomes.at? path).bind Outcome.failure

theorem add_failure (o : Outcome) (s : FileState) : (o.add s).failure = o.failure.or (s.failure.map Prod.snd) := by
  unfold Outcome.add
  rcases s.failure with _ | ⟨stage, e⟩
  · simp
  · dsimp only
    cases hfailure : o.failure with
    | none => rfl
    | some e' => simp

theorem map_path_note (known : Outcomes) (s : FileState) : (known.note s).map Outcome.path =
    if s.path ∈ known.map Outcome.path then known.map Outcome.path else known.map Outcome.path ++ [s.path] := by
  have hany : known.any (·.path = s.path) ↔ s.path ∈ known.map Outcome.path := by simp
  unfold note
  simp only [hany]
  split
  · exact map_key_ite (fun o ho => (add_changes o s).1.trans ho) known
  · simp [(add_changes _ s).1, Outcome.start]

theorem Single.note {known : Outcomes} (h : known.Single) (s : FileState) : (known.note s).Single := by
  unfold Single
  rw [map_path_note]
  split
  · exact h
  · next hnew =>
    rw [← List.concat_eq_append]
    exact List.Nodup.concat hnew h

/-- What happened to a file is added to its outcome, which begins with it. -/
theorem at?_note (known : Outcomes) (s : FileState) (path : Bytes) : (known.note s).at? path =
    if path = s.path then some (((known.at? path).getD (.start s.path s.kind)).add s) else known.at? path := by
  have hkeep (o : Outcome) : (if o.path = s.path then o.add s else o).path = o.path := by
    split
    · exact (add_changes o s).1
    · rfl
  have hmap : at? (known.map fun o => if o.path = s.path then o.add s else o) path =
      (known.at? path).map fun o => if o.path = s.path then o.add s else o := by
    unfold at?
    rw [List.find?_map]
    simp only [Function.comp_def, hkeep]
  have hpath {o : Outcome} (ho : known.at? path = some o) : o.path = path := by simpa using List.find?_some ho
  unfold note
  split
  · next hany =>
    rw [hmap]
    cases hat : known.at? path with
    | none =>
      have hne : path ≠ s.path := by
        rintro rfl
        rw [at?, List.find?_eq_none] at hat
        obtain ⟨o, ho, heq⟩ := List.any_eq_true.mp hany
        exact hat o ho heq
      rw [if_neg hne]
      rfl
    | some o =>
      rw [Option.map_some, Option.getD_some, hpath hat]
      split <;> rfl
  · next hany =>
    unfold at?
    rw [List.find?_append]
    by_cases hself : path = s.path
    · subst hself
      have hnone : known.find? (·.path = s.path) = none := by
        rw [List.find?_eq_none]
        intro o ho heq
        exact hany (List.any_eq_true.mpr ⟨o, ho, heq⟩)
      simp [hnone, (add_changes _ s).1, Outcome.start]
    · simp [hself, Ne.symm hself, (add_changes _ s).1, Outcome.start]

theorem at?_foldl_note {l : List FileState} (hl : (l.map FileState.path).Nodup) (known : Outcomes) (path : Bytes) :
    at? (l.foldl note known) path = (l.find? (·.path = path)).elim (known.at? path) fun s =>
      some (((known.at? path).getD (.start path s.kind)).add s) := by
  induction l generalizing known with
  | nil => rfl
  | cons s rest ih =>
    obtain ⟨hs, hrest⟩ := List.nodup_cons.mp hl
    rw [List.foldl_cons, ih hrest, at?_note, List.find?_cons]
    by_cases hpath : path = s.path
    · have hnone : rest.find? (·.path = path) = none := by
        rw [List.find?_eq_none]
        intro x hx heq
        exact hs (List.mem_map.mpr ⟨x, hx, (of_decide_eq_true heq).trans hpath⟩)
      subst hpath
      rw [hnone, decide_eq_true rfl, if_pos rfl]
      rfl
    · rw [if_neg hpath, decide_eq_false (Ne.symm hpath)]

variable {outcomes : Outcomes} {r : Migration.Result}

theorem nodup_files (hr : (r.states.map FileState.path).Nodup) (p : FileState → Bool) :
    ((r.files.filter p).map FileState.path).Nodup := by
  have hfiles : (r.files.map FileState.path).Nodup := ((List.mergeSort_perm ..).map _).nodup_iff.mpr hr
  exact hfiles.sublist (List.filter_sublist.map FileState.path)

/-- One migration adds to the outcome of a file what it says of the file. -/
theorem at?_add (hr : (r.states.map FileState.path).Nodup) (outcomes : Outcomes) (path : Bytes) :
    (outcomes.add r).at? path = (r.noted? path).elim (outcomes.at? path) fun s =>
      some (((outcomes.at? path).getD (.start path s.kind)).add s) := by
  have hnoted : (r.files.filter fun s => s.changed || s.failure.isSome).find? (·.path = path) = r.noted? path := by
    ext s
    rw [find?_eq_some_iff_of_nodup (nodup_files hr _), Migration.Result.noted?, Option.filter_eq_some_iff,
      Migration.Result.file?, find?_eq_some_iff_of_nodup hr, List.mem_filter, Migration.Result.files, List.mem_mergeSort]
    exact and_right_comm
  rw [add_eq, at?_foldl_note (nodup_files hr _), hnoted]

theorem Single.add (h : outcomes.Single) (r : Migration.Result) : (outcomes.add r).Single := by
  rw [add_eq]
  generalize r.files.filter _ = l
  induction l generalizing outcomes with
  | nil => exact h
  | cons s rest ih => exact ih (h.note s)

/-- A migration leaves a file out if it neither changed it nor gave it up. -/
theorem noted?_cases (r : Migration.Result) (path : Bytes) :
    (r.noted? path = none ∧ r.changesIn path = 0 ∧ r.failureIn path = none) ∨
      ∃ s, r.noted? path = some s ∧ r.changesIn path = s.changes ∧ r.failureIn path = s.failure.map Prod.snd := by
  unfold Migration.Result.noted? Migration.Result.changesIn Migration.Result.failureIn
  cases r.file? path with
  | none => exact .inl ⟨rfl, rfl, rfl⟩
  | some s =>
    cases hnoted : s.changed || s.failure.isSome with
    | false =>
      obtain ⟨hchanged, hfailure⟩ := Bool.or_eq_false_iff.mp hnoted
      have hzero : s.changes = 0 := by simpa [FileState.changed] using hchanged
      have hlive : s.failure = none := by simpa using hfailure
      refine .inl ⟨?_, ?_, ?_⟩
      · simp [hchanged, hlive]
      · simp [hzero]
      · simp [hlive]
    | true => exact .inr ⟨s, by rw [Option.filter_some, if_pos hnoted], rfl, rfl⟩

theorem changesIn_add (hr : (r.states.map FileState.path).Nodup) (outcomes : Outcomes) (path : Bytes) :
    (outcomes.add r).changesIn path = outcomes.changesIn path + r.changesIn path := by
  unfold changesIn
  rw [at?_add hr]
  obtain ⟨hnoted, hchanges, -⟩ | ⟨s, hnoted, hchanges, -⟩ := noted?_cases r path
  · rw [hnoted, hchanges, Int.add_zero]
    rfl
  · rw [hnoted, hchanges, Option.elim_some, Option.elim_some, (add_changes _ s).2]
    cases outcomes.at? path with
    | none => rfl
    | some o => rfl

theorem failureIn_add (hr : (r.states.map FileState.path).Nodup) (outcomes : Outcomes) (path : Bytes) :
    (outcomes.add r).failureIn path = (outcomes.failureIn path).or (r.failureIn path) := by
  unfold failureIn
  rw [at?_add hr]
  obtain ⟨hnoted, -, hfailure⟩ | ⟨s, hnoted, -, hfailure⟩ := noted?_cases r path
  · rw [hnoted, hfailure, Option.or_none]
    rfl
  · rw [hnoted, hfailure, Option.elim_some, Option.bind_some, add_failure]
    cases outcomes.at? path with
    | none => rfl
    | some o => rfl

theorem isSome_at?_add (hr : (r.states.map FileState.path).Nodup) (outcomes : Outcomes) (path : Bytes) :
    ((outcomes.add r).at? path).isSome ↔ (outcomes.at? path).isSome ∨ (r.noted? path).isSome := by
  rw [at?_add hr]
  cases r.noted? path with
  | none => simp
  | some s => simp

/-- The number of edits in all files. -/
def edits (outcomes : Outcomes) : Int := (outcomes.map Outcome.changes).sum

theorem edits_note {known : Outcomes} (h : known.Single) (s : FileState) :
    (known.note s).edits = known.edits + s.changes := by
  unfold note edits
  split
  · next hany =>
    have hmem : s.path ∈ known.map Outcome.path := by simpa using hany
    exact sum_map_ite (fun o => (add_changes o s).2) h hmem
  · simp [(add_changes _ s).2, Outcome.start]

theorem edits_add (h : outcomes.Single) (r : Migration.Result) :
    (outcomes.add r).edits = outcomes.edits + (r.states.map fun s => (s.changes : Int)).sum := by
  have hfold (l : List FileState) : ∀ known : Outcomes, known.Single →
      edits (l.foldl note known) = known.edits + (l.map fun s => (s.changes : Int)).sum := by
    induction l with
    | nil =>
      intro known _
      simp
    | cons s rest ih =>
      intro known hknown
      rw [List.foldl_cons, ih _ (hknown.note s), edits_note hknown, List.map_cons, List.sum_cons, Int.add_assoc]
  have hleft : ∀ s ∈ r.files, (s.changed || s.failure.isSome) = false → (s.changes : Int) = 0 := by
    intro s _ hout
    have hchanged : ¬0 < s.changes := of_decide_eq_false (Bool.or_eq_false_iff.mp hout).1
    omega
  rw [add_eq, hfold _ _ h, sum_map_filter hleft]
  congr 1
  exact ((List.mergeSort_perm ..).map _).sum_eq

/-- What is said of a file after several migrations, and how often it was edited in all. -/
theorem foldl_add {rs : List Migration.Result} (hrs : ∀ r ∈ rs, (r.states.map FileState.path).Nodup)
    (h : outcomes.Single) :
    let all : Outcomes := rs.foldl add outcomes
    all.Single ∧ (∀ q, all.changesIn q = outcomes.changesIn q + (rs.map (·.changesIn q)).sum) ∧
      (∀ q, all.failureIn q = (outcomes.failureIn q).or (rs.findSome? (·.failureIn q))) ∧
      (∀ q, (all.at? q).isSome ↔ (outcomes.at? q).isSome ∨ ∃ r ∈ rs, (r.noted? q).isSome) ∧
      all.edits = outcomes.edits + (rs.map fun r => (r.states.map fun s => (s.changes : Int)).sum).sum := by
  induction rs generalizing outcomes with
  | nil => simp [h]
  | cons r rest ih =>
    obtain ⟨hr, hrest⟩ := List.forall_mem_cons.mp hrs
    obtain ⟨hsingle, hchanges, hfailure, hthere, hedits⟩ := ih hrest (h.add r)
    refine ⟨hsingle, fun q => ?_, fun q => ?_, fun q => ?_, ?_⟩
    · rw [List.foldl_cons, hchanges, changesIn_add hr, List.map_cons, List.sum_cons, Int.add_assoc]
    · rw [List.foldl_cons, hfailure, failureIn_add hr, List.findSome?_cons, Option.or_assoc]
      cases r.failureIn q <;> rfl
    · rw [List.foldl_cons, hthere, isSome_at?_add hr, or_assoc, List.exists_mem_cons_iff]
    · rw [List.foldl_cons, hedits, edits_add h, List.map_cons, List.sum_cons, Int.add_assoc]

theorem at?_of_mem (h : outcomes.Single) {o : Outcome} (ho : o ∈ outcomes) : outcomes.at? o.path = some o :=
  (find?_eq_some_iff_of_nodup h).mpr ⟨ho, rfl⟩

theorem isSome_at? (outcomes : Outcomes) (path : Bytes) :
    (outcomes.at? path).isSome ↔ path ∈ outcomes.map Outcome.path := by
  simp [at?]

end Outcomes

/-- The results of the migrations of a run, in order, up to one that reports a fault. -/
def results (settings : Settings) (files : FileSet) : List Migration → Progress → List Migration.Result
  | [], _ => []
  | m :: rest, p =>
    let o := Migration.run Disk.store (settings.disabled.getD []) files m p.cancelled (p.disk, p.files)
    o.result :: if o.fault.isSome then [] else results settings files rest (runMigrations settings files [m] p)

section Results

variable (settings : Settings) (files : FileSet)

theorem runMigrations_singleton (m : Migration) (p : Progress) :
    let o := Migration.run Disk.store (settings.disabled.getD []) files m p.cancelled (p.disk, p.files)
    ∃ log, runMigrations settings files [m] p =
      ⟨o.tree.1, o.tree.2, p.outcomes.add o.result, p.migrations ++ [.ofResult o.result], o.cancelled, o.fault, log⟩ := by
  refine ⟨(runMigrations settings files [m] p).log, ?_⟩
  simp only [runMigrations, ite_self]

theorem runMigrations_eq (m : Migration) (rest : List Migration) (p : Progress) :
    runMigrations settings files (m :: rest) p =
      if (Migration.run Disk.store (settings.disabled.getD []) files m p.cancelled (p.disk, p.files)).fault.isSome then
        runMigrations settings files [m] p
      else runMigrations settings files rest (runMigrations settings files [m] p) := by
  simp only [runMigrations, ite_self]

/-- The outcomes of a run and its list of migrations take over the result of each one. -/
theorem runMigrations_results (migrations : List Migration) (p : Progress) :
    let done := runMigrations settings files migrations p
    done.outcomes = (results settings files migrations p).foldl Outcomes.add p.outcomes ∧
      done.migrations = p.migrations ++ (results settings files migrations p).map MigrationSummary.ofResult := by
  induction migrations generalizing p with
  | nil => exact ⟨rfl, (List.append_nil _).symm⟩
  | cons m rest ih =>
    obtain ⟨log, hone⟩ := runMigrations_singleton settings files m p
    obtain ⟨houtcomes, hmigrations⟩ := ih (runMigrations settings files [m] p)
    dsimp only
    rw [runMigrations_eq, results]
    split
    · rw [hone]
      exact ⟨rfl, rfl⟩
    · rw [houtcomes, hmigrations, hone]
      exact ⟨rfl, by simp⟩

/-- Each result counts the edits of its stages in the states of the files. -/
theorem sums_of_mem_results {r : Migration.Result} {migrations : List Migration} {p : Progress}
    (hr : r ∈ results settings files migrations p) : Sums r.states (total (r.stages.map (·.changes))) := by
  induction migrations generalizing p with
  | nil => cases hr
  | cons m rest ih =>
    rw [results] at hr
    obtain rfl | hr := List.mem_cons.mp hr
    · have hstart : Sums [] 0 := ⟨List.nodup_nil, rfl⟩
      have hend := hstart.runStages Disk.store (p := ⟨(p.disk, p.files), [], .empty, p.cancelled, []⟩)
        (settings.disabled.getD []) files m.version m.stages
      rw [Nat.zero_add] at hend
      exact hend
    · split at hr
      · cases hr
      · exact ih hr

variable {settings files}

theorem uncancelled_of_runMigrations {migrations : List Migration} {p : Progress}
    (h : (runMigrations settings files migrations p).cancelled = false) : p.cancelled = false := by
  induction migrations generalizing p with
  | nil => exact h
  | cons m rest ih =>
    have hone : (runMigrations settings files [m] p).cancelled = false := by
      rw [runMigrations_eq] at h
      split at h
      · exact h
      · exact ih h
    obtain ⟨log, heq⟩ := runMigrations_singleton settings files m p
    rw [heq] at hone
    exact (runStages_cancelled hone :)

/-- What the stages of a migration are called, and whether they are left out. -/
def planned (settings : Settings) (m : Migration) : List (String × Bool) :=
  m.stages.map fun s => (s.rule.id, (settings.disabled.getD []).contains s.rule.id)

/-- A run that is not cancelled comes to every stage of every migration. -/
theorem results_complete {migrations : List Migration} {p : Progress} (hp : p.fault = none)
    (h : (runMigrations settings files migrations p).cancelled = false) :
    (runMigrations settings files migrations p).fault = none ∧
      (results settings files migrations p).map (fun r => (r.migration, r.stages.map fun s => (s.id, s.skipped))) =
        migrations.map fun m => (m.version, planned settings m) := by
  induction migrations generalizing p with
  | nil => exact ⟨hp, rfl⟩
  | cons m rest ih =>
    have hone : (runMigrations settings files [m] p).cancelled = false := by
      rw [runMigrations_eq] at h
      split at h
      · exact h
      · exact uncancelled_of_runMigrations h
    obtain ⟨log, heq⟩ := runMigrations_singleton settings files m p
    rw [heq] at hone
    obtain ⟨hstages, hfault⟩ := runStages_complete Disk.store (settings.disabled.getD []) files m.version m.stages hone
    have hnone : (Migration.run Disk.store (settings.disabled.getD []) files m p.cancelled (p.disk, p.files)).fault = none :=
      hfault
    rw [runMigrations_eq, hnone] at h ⊢
    have hnext : (runMigrations settings files [m] p).fault = none := by
      rw [heq]
      exact hnone
    obtain ⟨hdone, hrest⟩ := ih hnext h
    refine ⟨hdone, ?_⟩
    rw [results, hnone, List.map_cons, List.map_cons]
    congr 1
    exact congrArg (Prod.mk m.version) hstages

end Results

/-- The files of a result are those that a migration changed or gave up, by path and none twice, each with the
number of edits in it and the reason why it was given up first. -/
structure Result.Covers (r : Result) (ran : List Migration.Result) : Prop where
  ascends : (r.files.map Outcome.path).Pairwise Bytes.Before
  files : ∀ q, q ∈ r.files.map Outcome.path ↔
    ∃ x ∈ ran, ∃ s, x.file? q = some s ∧ (s.changed = true ∨ s.failure.isSome)
  changes : ∀ o ∈ r.files, o.changes = (ran.map (·.changesIn o.path)).sum
  failure : ∀ o ∈ r.files, o.failure = ran.findSome? (·.failureIn o.path)

/-- The totals of a result count its files, the edits and the stages. -/
structure Result.Counts (r : Result) (migrations : List Migration) : Prop where
  modified : r.stats.filesModified = r.files.countP fun o => 0 < o.changes
  failed : r.stats.filesFailed = r.files.countP fun o => o.failure.isSome
  edits : r.stats.changesApplied = (r.files.map Outcome.changes).sum
  staged : r.stats.changesApplied = ((r.migrations.flatMap MigrationSummary.stages).map StageSummary.changes).sum
  stages : r.stats.stagesRun + r.stats.stagesSkipped = (migrations.map fun m => (m.stages.length : Int)).sum

/-- The sizes and the diffs of a result go by what the files of a set held before and after. -/
structure Result.Measures (r : Result) (files : FileSet) (before after : Bytes → Bytes) : Prop where
  bytesBefore : r.stats.bytesBefore = (r.changed.map fun o => ((before o.path).length : Int)).sum
  bytesAfter : r.stats.bytesAfter = (r.changed.map fun o => ((after o.path).length : Int)).sum
  ascends : (r.diffs.map Patch.Diff.path).Pairwise Bytes.Before
  differs : ∀ q, q ∈ r.diffs.map Patch.Diff.path ↔ files.Lists q ∧ before q ≠ after q
  shows : ∀ d ∈ r.diffs, d.before = before d.path ∧ d.after = after d.path
  among : ∀ d ∈ r.diffs, d.path ∈ r.changed.map Outcome.path

section Finish

variable {settings : Settings} {files : FileSet} {outcomes : Outcomes} {d : Disk} {migrations : List Migration}
  {ran : List Migration.Result} {r : Result}

theorem perm_finished (hfiles : r.files = (outcomes.map (finishOutcome d)).mergeSort fun a b => a.path.le b.path) :
    r.files.Perm (outcomes.map (finishOutcome d)) := hfiles ▸ List.mergeSort_perm ..

theorem covers_of_results (hfiles : r.files = (outcomes.map (finishOutcome d)).mergeSort fun a b => a.path.le b.path)
    (houtcomes : outcomes = ran.foldl Outcomes.add [])
    (hran : ∀ x ∈ ran, (x.states.map FileState.path).Nodup) : r.Covers ran := by
  have hnone : Outcomes.Single [] := List.nodup_nil
  obtain ⟨hsingle, hchanges, hfailure, hthere, -⟩ := Outcomes.foldl_add hran hnone
  rw [← houtcomes] at hsingle hchanges hfailure hthere
  have hperm := perm_finished hfiles
  have hpaths : (r.files.map Outcome.path).Perm (outcomes.map Outcome.path) := by
    have hmap := hperm.map Outcome.path
    rwa [List.map_map] at hmap
  have hsource {o : Outcome} (ho : o ∈ r.files) : ∃ x ∈ outcomes, finishOutcome d x = o :=
    List.mem_map.mp (hperm.mem_iff.mp ho)
  refine ⟨?_, fun q => ?_, fun o ho => ?_, fun o ho => ?_⟩
  · rw [hfiles]
    apply Bytes.mergeSort_ascending
    rw [List.map_map]
    exact hsingle
  · rw [hpaths.mem_iff, ← Outcomes.isSome_at?, hthere]
    simp only [Outcomes.at?, List.find?_nil, Option.isSome_none, Bool.false_eq_true, false_or]
    apply exists_congr
    intro x
    apply and_congr_right
    intro _
    rw [Option.isSome_iff_exists]
    apply exists_congr
    intro s
    rw [Migration.Result.noted?, Option.filter_eq_some_iff, Bool.or_eq_true]
  · obtain ⟨x, hx, rfl⟩ := hsource ho
    have hin := hchanges x.path
    rw [Outcomes.changesIn, Outcomes.at?_of_mem hsingle hx] at hin
    exact hin.trans (Int.zero_add _)
  · obtain ⟨x, hx, rfl⟩ := hsource ho
    have hin := hfailure x.path
    rw [Outcomes.failureIn, Outcomes.at?_of_mem hsingle hx] at hin
    exact hin

theorem changesIn_nonneg (x : Migration.Result) (path : Bytes) : 0 ≤ x.changesIn path := by
  unfold Migration.Result.changesIn
  cases x.file? path with
  | none => exact Int.le_refl 0
  | some s => exact Int.natCast_nonneg s.changes

/-- The files that are reported as changed have all the edits. -/
theorem edits_eq_sum_changed (hcovers : r.Covers ran) :
    (r.changed.map Outcome.changes).sum = (r.files.map Outcome.changes).sum := by
  apply sum_map_filter
  intro o ho hunchanged
  have hmost : ¬0 < o.changes := of_decide_eq_false hunchanged
  have hleast : 0 ≤ o.changes := by
    rw [hcovers.changes o ho]
    apply List.sum_nonneg
    intro n hn
    obtain ⟨x, -, rfl⟩ := List.mem_map.mp hn
    exact changesIn_nonneg x o.path
  omega

/-- The stages report the edits that the states of the files count. -/
theorem sum_stages (hran : ∀ x ∈ ran, Sums x.states (total (x.stages.map (·.changes)))) :
    (((ran.map MigrationSummary.ofResult).flatMap MigrationSummary.stages).map StageSummary.changes).sum =
      (ran.map fun x => (x.states.map fun s => (s.changes : Int)).sum).sum := by
  induction ran with
  | nil => rfl
  | cons x rest ih =>
    obtain ⟨hx, hrest⟩ := List.forall_mem_cons.mp hran
    have hhere : ((MigrationSummary.ofResult x).stages.map StageSummary.changes).sum =
        (x.states.map fun s => (s.changes : Int)).sum := by
      rw [sum_cast, hx.total, ← sum_cast, MigrationSummary.ofResult, List.map_map]
      rfl
    rw [List.map_cons, List.flatMap_cons, List.map_append, List.sum_append, hhere, ih hrest, List.map_cons, List.sum_cons]

theorem countP_skipped (stages : List StageSummary) :
    ((stages.countP fun s => !s.skipped : Nat) : Int) + (stages.countP fun s => s.skipped : Nat) = stages.length := by
  have hsplit := stages.length_eq_countP_add_countP fun s => s.skipped
  simp only [Bool.not_eq_true, Bool.decide_eq_false] at hsplit
  omega

theorem counts_of_results {files : FileSet}
    (hfiles : r.files = (outcomes.map (finishOutcome d)).mergeSort fun a b => a.path.le b.path)
    (hreported : r.migrations = ran.map MigrationSummary.ofResult)
    (hstats : r.stats = finishStats files d r.migrations r.files) (houtcomes : outcomes = ran.foldl Outcomes.add [])
    (hran : ∀ x ∈ ran, Sums x.states (total (x.stages.map (·.changes))))
    (hstages : (ran.map fun x => x.stages.length) = migrations.map fun m => m.stages.length) : r.Counts migrations := by
  have hnodup : ∀ x ∈ ran, (x.states.map FileState.path).Nodup := fun x hx => (hran x hx).nodup
  have hnone : Outcomes.Single [] := List.nodup_nil
  have hedits : r.stats.changesApplied = (r.files.map Outcome.changes).sum := by
    rw [hstats, ← edits_eq_sum_changed (covers_of_results hfiles houtcomes hnodup)]
    exact sumOf_eq_sum _
  refine ⟨?_, ?_, hedits, ?_, ?_⟩
  · rw [hstats, List.countP_eq_length_filter]
    rfl
  · rw [hstats]
    rfl
  · obtain ⟨-, -, -, -, hsum⟩ := Outcomes.foldl_add hnodup hnone
    have hall : (r.files.map Outcome.changes).sum = outcomes.edits := by
      have hmap := (perm_finished hfiles).map Outcome.changes
      rw [List.map_map] at hmap
      exact hmap.sum_eq
    rw [hedits, hall, houtcomes, hsum, hreported, sum_stages hran]
    exact Int.zero_add _
  · have hlength : (r.migrations.flatMap MigrationSummary.stages).length = (ran.map fun x => x.stages.length).sum := by
      rw [hreported, List.length_flatMap, List.map_map]
      simp [Function.comp_def, MigrationSummary.ofResult]
    rw [sum_cast, total_eq_sum, ← hstages, ← hlength, hstats]
    exact countP_skipped _

end Finish

/-- Sizes and diffs go by what the disk remembers of the files. -/
theorem measures_of_recounts {files : FileSet} {outcomes : Outcomes} {d : Disk} {r : Result}
    {dry : Bool} {fs₀ fs : FileSystem} {paths : List Bytes} {before after : Bytes → Bytes}
    (hfiles : r.files = (outcomes.map (finishOutcome d)).mergeSort fun a b => a.path.le b.path)
    (hdiffs : r.diffs = d.diffs) (hstats : r.stats = finishStats files d r.migrations r.files)
    (hdisk : Recounts dry fs₀ files paths outcomes.edited (d, fs)) (hpaths : ∀ q, files.Lists q → q ∈ paths)
    (hbefore : ∀ q, files.Lists q → fs₀.read q = .ok (before q))
    (hafter : ∀ q, files.Lists q → (d.read fs false q).1 = .ok (after q)) : r.Measures files before after := by
  -- what is remembered of a file, and the files of which nothing is
  have hknown {q : Bytes} {x : Tracked} (hx : d.file? q = some x) : x.first = before q ∧ x.latest = after q := by
    have hlisted := hdisk.listed q x hx
    refine ⟨?_, ?_⟩
    · exact Except.ok.inj ((hdisk.first q x hx).symm.trans (hbefore q hlisted))
    · exact Except.ok.inj ((hdisk.read_of_tracked hpaths hx).symm.trans (hafter q hlisted))
  have hunknown {q : Bytes} (hq : files.Lists q) (hnone : d.file? q = none) : before q = after q := by
    have hread := hdisk.read_of_untracked hpaths hq hnone
    rw [hafter q hq, hbefore q hq] at hread
    exact (Except.ok.inj hread).symm
  have hmem {q : Bytes} {x : Tracked} : d.file? q = some x ↔ x ∈ d.tracked ∧ x.path = q :=
    find?_eq_some_iff_of_nodup hdisk.distinct
  have hchanged {q : Bytes} : q ∈ r.changed.map Outcome.path ↔ q ∈ outcomes.edited := by
    simp only [Result.changed, hfiles, List.mem_map, List.mem_filter, List.mem_mergeSort, Outcomes.edited, Set.mem_ofPred_eq]
    constructor
    · intro hq
      obtain ⟨_, ⟨⟨x, hx, rfl⟩, hmore⟩, hpath⟩ := hq
      exact ⟨x, hx, hpath, hmore⟩
    · intro hq
      obtain ⟨x, hx, hpath, hmore⟩ := hq
      exact ⟨finishOutcome d x, ⟨⟨x, hx, rfl⟩, hmore⟩, hpath⟩
  have hsizes : ∀ o ∈ r.changed, o.sizeBefore = ((before o.path).length : Int) ∧ o.size = ((after o.path).length : Int) := by
    intro o ho
    obtain ⟨x, hx⟩ := Option.isSome_iff_exists.mp (hdisk.tracked o.path (hchanged.mp (List.mem_map_of_mem ho)))
    obtain ⟨hfirst, hlatest⟩ := hknown hx
    have hsource := (perm_finished hfiles).mem_iff.mp (List.mem_of_mem_filter ho)
    obtain ⟨source, -, rfl⟩ := List.mem_map.mp hsource
    have hfile : d.file? source.path = some x := hx
    rw [← hfirst, ← hlatest]
    show ((d.sizes source.path).1 : Int) = _ ∧ ((d.sizes source.path).2 : Int) = _
    rw [Disk.sizes, hfile]
    exact ⟨rfl, rfl⟩
  have hdiffers {q : Bytes} : q ∈ r.diffs.map Patch.Diff.path ↔ files.Lists q ∧ before q ≠ after q := by
    rw [hdiffs, Disk.map_path_diffs, Disk.changed, List.mem_map]
    constructor
    · intro hq
      obtain ⟨x, hx, rfl⟩ := hq
      obtain ⟨htracked, hne⟩ := Disk.mem_changedFiles.mp hx
      have hfile := hmem.mpr ⟨htracked, rfl⟩
      obtain ⟨hfirst, hlatest⟩ := hknown hfile
      exact ⟨hdisk.listed x.path x hfile, hfirst ▸ hlatest ▸ hne⟩
    · intro hq
      obtain ⟨hlisted, hne⟩ := hq
      obtain ⟨x, hx⟩ := Option.ne_none_iff_exists'.mp fun hnone => hne (hunknown hlisted hnone)
      obtain ⟨htracked, rfl⟩ := hmem.mp hx
      obtain ⟨hfirst, hlatest⟩ := hknown hx
      exact ⟨x, Disk.mem_changedFiles.mpr ⟨htracked, hfirst.symm ▸ hlatest.symm ▸ hne⟩, rfl⟩
  refine ⟨?_, ?_, ?_, fun q => hdiffers, fun y hy => ?_, fun y hy => ?_⟩
  · have hsum : r.stats.bytesBefore = sumOf (r.changed.map Outcome.sizeBefore) := by rw [hstats]; rfl
    rw [hsum, sumOf_eq_sum, List.map_congr_left fun o ho => (hsizes o ho).1]
  · have hsum : r.stats.bytesAfter = sumOf (r.changed.map Outcome.size) := by rw [hstats]; rfl
    rw [hsum, sumOf_eq_sum, List.map_congr_left fun o ho => (hsizes o ho).2]
  · rw [hdiffs, Disk.map_path_diffs]
    exact Disk.changed_ascends hdisk.distinct
  · obtain ⟨x, hx, hpath, hfirst, hlatest⟩ := Disk.exists_of_mem_diffs (hdiffs ▸ hy)
    obtain ⟨hfirst', hlatest'⟩ := hknown (hmem.mpr ⟨hx, rfl⟩)
    rw [hpath, hfirst, hlatest]
    exact ⟨hfirst', hlatest'⟩
  · obtain ⟨hlisted, hne⟩ := hdiffers.mp (List.mem_map_of_mem hy)
    rw [hchanged]
    obtain ⟨x, hx⟩ := Option.ne_none_iff_exists'.mp fun hnone => hne (hunknown hlisted hnone)
    obtain ⟨hfirst, hlatest⟩ := hknown hx
    -- a file that was not written holds what it held at first
    by_contra hunwritten
    exact hne (hfirst.symm.trans ((hdisk.unwritten _ x hx hunwritten).symm.trans hlatest))

/-- The totals of a run that is not cancelled agree with what its migrations did to the files, each of which is
one that can be read and is reached by no other path. -/
theorem totals_agree (settings : Settings) (current target : Version) (files : FileSet) (migrations : List Migration)
    {fs : FileSystem} {paths : List Bytes} (cancelled : Bool) (log : List Log.Record)
    (hpaths : ∀ q, files.Lists q → q ∈ paths) (hstrangers : Strangers paths fs)
    (hreadable : ∀ q, files.Lists q → ∃ content, fs.read q = .ok content)
    (hlive : (runMigrations settings files migrations
      ⟨.start settings.dryRun settings.backupPolicy, fs, [], [], cancelled, none, log⟩).cancelled = false) :
    let start : Progress := ⟨.start settings.dryRun settings.backupPolicy, fs, [], [], cancelled, none, log⟩
    let done := runMigrations settings files migrations start
    let ran := results settings files migrations start
    let out := finish settings current target files done
    (ran.map fun x => (x.migration, x.stages.map fun s => (s.id, s.skipped))) =
        (migrations.map fun m => (m.version, planned settings m)) ∧
      ∃ r before after, out.result = some r ∧ out.fault = none ∧ r.migrations = ran.map MigrationSummary.ofResult ∧
        (∀ q, files.Lists q → fs.read q = .ok (before q)) ∧
        (if settings.dryRun then out.files = fs ∧ ∀ q, files.Lists q → (done.disk.read fs false q).1 = .ok (after q)
          else ∀ q, files.Lists q → out.files.read q = .ok (after q)) ∧
        r.Covers ran ∧ r.Counts migrations ∧ r.Measures files before after := by
  intro start done ran out
  obtain ⟨hfault, hcomplete⟩ := results_complete (p := start) rfl hlive
  obtain ⟨houtcomes, hreported⟩ := runMigrations_results settings files migrations start
  have hsums : ∀ x ∈ ran, Sums x.states (total (x.stages.map (·.changes))) :=
    fun x hx => sums_of_mem_results settings files hx
  have hstages : (ran.map fun x => x.stages.length) = migrations.map fun m => m.stages.length := by
    have hlengths := congrArg (List.map fun x : Version × List (String × Bool) => x.2.length) hcomplete
    simpa [Function.comp_def, planned] using hlengths
  have hdisk : Recounts settings.dryRun fs files paths done.outcomes.edited (done.disk, done.files) := by
    have hnone : Outcomes.edited [] = ∅ := by
      ext q
      simp [Outcomes.edited]
    have hstart : Recounts settings.dryRun fs files paths (Outcomes.edited []) (start.disk, start.files) :=
      hnone ▸ Recounts.start settings.backupPolicy hstrangers hreadable
    exact runMigrations_follows (Recounts.follows hpaths) settings (fun _ hq => hq) migrations
      (fun o ho => absurd ho List.not_mem_nil) hstart
  let contentOf (answer : Except Fault Bytes) : Bytes := answer.toOption.getD []
  let before (q : Bytes) : Bytes := contentOf (fs.read q)
  let after (q : Bytes) : Bytes := contentOf (done.disk.read done.files false q).1
  have hbefore (q : Bytes) (hq : files.Lists q) : fs.read q = .ok (before q) := by
    obtain ⟨content, hread⟩ := hreadable q hq
    simp only [before, contentOf, hread]
    rfl
  have hafter (q : Bytes) (hq : files.Lists q) : (done.disk.read done.files false q).1 = .ok (after q) := by
    have hok : ∃ content, (done.disk.read done.files false q).1 = .ok content := by
      cases hfile : done.disk.file? q with
      | some x => exact ⟨x.latest, hdisk.read_of_tracked hpaths hfile⟩
      | none => exact ⟨before q, (hdisk.read_of_untracked hpaths hq hfile).trans (hbefore q hq)⟩
    obtain ⟨content, hcontent⟩ := hok
    simp only [after, contentOf, hcontent]
    rfl
  refine ⟨hcomplete, ((finish settings current target files done).result.get rfl), before, after, rfl, ?_, hreported,
    hbefore, ?_, ?_, ?_, ?_⟩
  · show done.fault.map Halt.fault = none
    rw [hfault]
    rfl
  · split
    · next hdry =>
      have hsame : done.files = fs := hdisk.still hdry
      refine ⟨hsame, fun q hq => ?_⟩
      rw [← hsame]
      exact hafter q hq
    · next hwriting =>
      intro q hq
      show done.files.read q = .ok (after q)
      rw [← hafter q hq, Disk.read_result, show done.disk.dryRun = settings.dryRun from hdisk.mode, if_neg hwriting]
      obtain ⟨here, data, hholds⟩ := hdisk.exists_holds hpaths hq
      rw [Snapshot.take_of_holds hholds, hholds.read]
      rfl
  · exact covers_of_results rfl houtcomes fun x hx => (hsums x hx).nodup
  · exact counts_of_results rfl hreported rfl houtcomes hsums hstages
  · exact measures_of_recounts rfl rfl rfl hdisk hpaths hbefore hafter

theorem runMigrations_uncancelled {settings : Settings} {files : FileSet} {migrations : List Migration} {p : Progress}
    (hrules : ∀ m ∈ migrations, ∀ stage ∈ m.stages, ∀ c, (stage.rule.apply c).cancels = false) (hp : p.cancelled = false) :
    (runMigrations settings files migrations p).cancelled = false := by
  induction migrations generalizing p with
  | nil => exact hp
  | cons m rest ih =>
    obtain ⟨hm, hrest⟩ := List.forall_mem_cons.mp hrules
    obtain ⟨log, heq⟩ := runMigrations_singleton settings files m p
    have hone : (runMigrations settings files [m] p).cancelled = false := by
      rw [heq]
      exact runStages_uncancelled (settings.disabled.getD []) files m.version hm hp
    rw [runMigrations_eq]
    split
    · exact hone
    · exact ih hrest hone

/-- One stage writes the only file. -/
theorem totals_agree_lone :
    let m : Migration := ⟨⟨2, 0, 0, []⟩, "", [giving (.ok [.replace 0 "x" "y"])]⟩
    let done := runMigrations .standard loneFile [m] ⟨.start false .standard, lone, [], [], false, none, []⟩
    done.cancelled = false ∧ ∃ r, (finish .standard ⟨1, 0, 0, []⟩ ⟨2, 0, 0, []⟩ loneFile done).result = some r ∧
      r.stats.stagesRun + r.stats.stagesSkipped = 1 ∧ bytes "b" ∈ r.changed.map Outcome.path ∧
      ∃ d ∈ r.diffs, d.path = bytes "b" ∧ d.before = bytes "x" ∧ d.after = bytes "y" := by
  intro m done
  have hlive : done.cancelled = false := by
    apply runMigrations_uncancelled _ rfl
    intro m' hm stage hstage c
    rw [List.mem_singleton.mp hm] at hstage
    rw [List.mem_singleton.mp hstage]
    rfl
  have hreadable (q : Bytes) (hq : loneFile.Lists q) : ∃ content, lone.read q = .ok content := by
    obtain rfl := List.mem_singleton.mp (loneFile_lists.mp hq)
    exact ⟨_, lone_holds.read⟩
  obtain ⟨-, r, before, after, hresult, -, -, hbefore, hafter, -, hcounts, hmeasures⟩ :=
    totals_agree .standard ⟨1, 0, 0, []⟩ ⟨2, 0, 0, []⟩ loneFile [m] false [] (fun q => loneFile_lists.mp) lone_strangers
      hreadable hlive
  have hpath : loneFile.Lists "b" := loneFile_lists.mpr (List.mem_singleton_self _)
  have hfirst : before "b" = bytes "x" := Except.ok.inj ((hbefore "b" hpath).symm.trans lone_holds.read)
  have hlast : after "b" = bytes "y" := by
    obtain ⟨d, d', hread, hagain, hwrite⟩ := lone_calls
    have hstart : Disk.store.read "b" (.start false .standard, lone) = (.ok "x", d, lone) := by
      show (((Disk.start false .standard).read lone false "b").1, ((Disk.start false .standard).read lone false "b").2, lone) = _
      rw [hread]
    obtain ⟨htree, -⟩ := run_giving_edit_of_reads ⟨2, 0, 0, []⟩ hstart hagain hwrite
    obtain ⟨log, heq⟩ := runMigrations_singleton .standard loneFile m ⟨.start false .standard, lone, [], [], false, none, []⟩
    have hfiles : done.files = loneWritten := (congrArg Progress.files heq).trans (congrArg Prod.snd htree)
    have hread : done.files.read "b" = .ok (after "b") := hafter "b" hpath
    rw [hfiles] at hread
    exact Except.ok.inj (hread.symm.trans loneWritten_holds.read)
  have hne : before "b" ≠ after "b" := by
    rw [hfirst, hlast]
    decide
  obtain ⟨d, hd, hdpath⟩ := List.mem_map.mp ((hmeasures.differs "b").mpr ⟨hpath, hne⟩)
  obtain ⟨hdfirst, hdlast⟩ := hmeasures.shows d hd
  refine ⟨hlive, r, hresult, hcounts.stages, hdpath ▸ hmeasures.among d hd, d, hd, hdpath, ?_, ?_⟩
  · rw [hdfirst, hdpath, ← hfirst]
  · rw [hdlast, hdpath, ← hlast]

end Run

end Codemod
