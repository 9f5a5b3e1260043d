import Mathlib.Logic.Relation
import Codemod.Proofs.Files.Backup
import Codemod.Proofs.Migration.Asked
import Codemod.Proofs.Migration.FileStep
import Codemod.Proofs.Workspace.DryRun
import Codemod.Run.Runner

namespace Codemod

open Edit Files Migration Workspace

/-- A call of a store for one of the paths that are allowed, whatever it answers. -/
inductive Workspace.Store.Calls {σ : Type} (store : Store σ) (reads writes : Bytes → Prop) : σ → σ → Prop
  | read (t : σ) {path : Bytes} (h : reads path) : Calls store reads writes t (store.read path t).2
  | overwrite (t : σ) {path : Bytes} (content : Bytes) (h : writes path) :
      Calls store reads writes t (store.overwrite path content t).2

/-- One or more calls, or none. -/
abbrev Workspace.Store.Reaches {σ : Type} (store : Store σ) (reads writes : Bytes → Prop) : σ → σ → Prop :=
  Relation.ReflTransGen (store.Calls reads writes)

/-- The path is a file of the set. -/
def Workspace.FileSet.Lists (s : FileSet) (path : Bytes) : Prop := ∃ kind, path ∈ s.files kind

namespace Migration

/-- Whatever a file holds, the rule of a stage asks for no edits. -/
def Stage.Spares (stage : Stage) (path : Bytes) : Prop :=
  ∀ content touched changes, stage.edits? path content touched = some changes → changes = []

section Engine

variable {σ : Type} {store : Store σ} {reads writes : Bytes → Prop} {files : FileSet} {stage : Stage} {p : Progress σ}
  {path : Bytes}

theorem visit_reaches {q : Bytes} (h : p.cancelled = false → givenUp stage p q = false → reads q) :
    store.Reaches reads writes p.tree (visit store stage p q).tree := by
  cases hp : p.cancelled with
  | true =>
    rw [visit_of_cancelled hp]
  | false =>
    obtain ⟨log, heq⟩ := visit_eq store stage q hp
    rw [heq]
    split
    · exact .refl
    · next hgiven =>
      have hread : store.Reaches reads writes p.tree (store.read q p.tree).2 :=
        .single (.read p.tree (h hp (by simpa using hgiven)))
      dsimp only
      split
      · exact hread
      · exact hread

theorem flushPath_reaches {q : Bytes} (hread : reads q) (hwrite : writes q) (changes : List Change) (t : σ) :
    store.Reaches reads writes t (Batch.flushPath store q changes t).2 := by
  have hlook : store.Reaches reads writes t (store.read q t).2 := .single (.read t hread)
  unfold Batch.flushPath
  generalize store.read q t = reading at hlook ⊢
  obtain ⟨content, u⟩ := reading
  cases content with
  | error e => exact hlook
  | ok content =>
    dsimp only
    cases applyChanges content changes with
    | error e => cases e <;> exact hlook
    | ok updated =>
      dsimp only
      split
      · exact hlook
      · have hput := hlook.tail (.overwrite u updated hwrite)
        generalize store.overwrite q updated u = writing at hput ⊢
        obtain ⟨answer, w⟩ := writing
        cases answer <;> exact hput

theorem flushPaths_reaches (b : Batch) (cancelled : Bool) {paths : List Bytes}
    (h : ∀ q ∈ paths, reads q ∧ writes q) (t : σ) :
    store.Reaches reads writes t (Batch.flushPaths store b cancelled paths t).2 := by
  cases cancelled with
  | true => rw [Batch.flushPaths_cancelled]
  | false =>
    induction paths generalizing t with
    | nil => exact .refl
    | cons q rest ih =>
      obtain ⟨⟨hread, hwrite⟩, hrest⟩ := List.forall_mem_cons.mp h
      rw [Batch.flushPaths_cons]
      exact (flushPath_reaches hread hwrite (b.pending q) t).trans (ih hrest _)

/-- A stage has nothing to do with a file: it was given up, or the rule may see it but asks for nothing. -/
def Aloof (reads : Bytes → Prop) (stage : Stage) (path : Bytes) (paths : List Bytes) (p : Progress σ) : Prop :=
  (∃ st, p.states.at? path = some st ∧ st.failure.isSome) ∨ (path ∈ paths → reads path ∧ stage.Spares path)

theorem pending_visit_of_spares (h : stage.Spares path) :
    (visit store stage p path).batch.pending path = p.batch.pending path := by
  by_cases hp : p.cancelled = true
  · rw [visit_of_cancelled hp]
  · obtain ⟨log, heq⟩ := visit_eq store stage path (by simpa using hp)
    rw [heq]
    split
    · rfl
    · dsimp only
      cases hedits : (verdictAt store stage p path).edits with
      | error e => rfl
      | ok changes =>
        have hnil : changes = [] := by
          unfold verdictAt verdictOn at hedits
          split at hedits
          · cases hedits
          · exact h _ _ _ (edits?_eq_some_iff.mpr hedits)
        rw [hnil]
        rfl

theorem pending_visit_other {q : Bytes} (hq : q ≠ path) :
    (visit store stage p q).batch.pending path = p.batch.pending path := by
  by_cases hp : p.cancelled = true
  · rw [visit_of_cancelled hp]
  · obtain ⟨-, hbatch⟩ := visit_elsewhere store hq stage (p := p) (by simpa using hp)
    rw [← Batch.pending_only, hbatch, Batch.pending_only]

theorem Aloof.visit (store : Store σ) (writes : Bytes → Prop) {q : Bytes} {rest : List Bytes} (h : Aloof reads stage path (q :: rest) p)
    (hq : q ≠ path → reads q) :
    store.Reaches reads writes p.tree (visit store stage p q).tree ∧
      (visit store stage p q).batch.pending path = p.batch.pending path ∧
      Aloof reads stage path rest (visit store stage p q) := by
  obtain ⟨st, hst, hfailure⟩ | hspared := h
  · obtain ⟨hstate, hpending⟩ := visit_of_failure store stage hst hfailure q
    refine ⟨visit_reaches fun _ hgiven => hq ?_, hpending, .inl ⟨st, hstate, hfailure⟩⟩
    rintro rfl
    rw [givenUp, States.get_eq, hst, Option.getD_some, hfailure] at hgiven
    cases hgiven
  · refine ⟨visit_reaches fun _ _ => ?_, ?_, .inr fun hmem => hspared (List.mem_cons_of_mem _ hmem)⟩
    · by_cases hpath : q = path
      · exact hpath ▸ (hspared (hpath ▸ List.mem_cons_self ..)).1
      · exact hq hpath
    · by_cases hpath : q = path
      · subst hpath
        exact pending_visit_of_spares (hspared (List.mem_cons_self ..)).2
      · exact pending_visit_other hpath

theorem Aloof.foldl_visit (store : Store σ) (writes : Bytes → Prop) {paths : List Bytes} (h : Aloof reads stage path paths p)
    (hothers : ∀ q ∈ paths, q ≠ path → reads q) :
    store.Reaches reads writes p.tree (paths.foldl (Migration.visit store stage) p).tree ∧
      (paths.foldl (Migration.visit store stage) p).batch.pending path = p.batch.pending path := by
  induction paths generalizing p with
  | nil => exact ⟨.refl, rfl⟩
  | cons q rest ih =>
    obtain ⟨hq, hrest⟩ := List.forall_mem_cons.mp hothers
    obtain ⟨hreaches, hpending, hnext⟩ := h.visit store writes hq
    obtain ⟨hlater, hwaits⟩ := ih hnext hrest
    exact ⟨hreaches.trans hlater, hwaits.trans hpending⟩

theorem pending_foldl_visit_of_not_mem {paths : List Bytes} (h : path ∉ paths) :
    (paths.foldl (visit store stage) p).batch.pending path = p.batch.pending path := by
  induction paths generalizing p with
  | nil => rfl
  | cons q rest ih =>
    obtain ⟨hq, hrest⟩ := not_or.mp (mt List.mem_cons.mpr h)
    exact (ih hrest).trans (pending_visit_other (Ne.symm hq))

/-- A stage that has nothing to do with a file overwrites only others. -/
theorem Aloof.runStage (h : Aloof reads stage path (files.files stage.rule.kind) p)
    (hothers : ∀ q ∈ files.files stage.rule.kind, q ≠ path → reads q ∧ writes q) :
    store.Reaches reads writes p.tree (runStage store files stage p).2.tree := by
  obtain ⟨hreaches, hpending⟩ := Aloof.foldl_visit store writes (p := { p with batch := .empty }) h
    fun q hq hne => (hothers q hq hne).1
  have hsound : (visited store files stage p).batch.Sound := foldl_visit_sound (Batch.sound_collect []) _
  refine hreaches.trans (flushPaths_reaches _ _ ?_ _)
  intro q hq
  have hwaits := (hsound.mem_paths q).mp hq
  have hlisted : q ∈ files.files stage.rule.kind := by
    by_contra hmem
    exact hwaits (pending_foldl_visit_of_not_mem hmem)
  refine hothers q hlisted ?_
  rintro rfl
  exact hwaits hpending

/-- The stages behind the one that gave a file up make no call for it. -/
theorem runStages_reaches_of_failure (disabled : List String) (version : Version) {st : FileState}
    (hst : p.states.at? path = some st) (hfailure : st.failure.isSome) (stages : List Stage)
    (hothers : ∀ q, files.Lists q → q ≠ path → reads q ∧ writes q) :
    store.Reaches reads writes p.tree (runStages store disabled files version stages p).progress.tree := by
  induction stages generalizing p with
  | nil => exact .refl
  | cons stage rest ih =>
    cases hp : p.cancelled with
    | true => rw [runStages, if_pos hp]
    | false =>
      have hstage : store.Reaches reads writes p.tree (passed store disabled files stage p).tree ∧
          (passed store disabled files stage p).states.at? path = some st := by
        unfold passed
        split
        · exact ⟨.refl, hst⟩
        · exact ⟨Aloof.runStage (.inl ⟨st, hst, hfailure⟩) fun q hq => hothers q ⟨_, hq⟩,
            runStage_of_failure hst hfailure⟩
      obtain ⟨log, hnext, -⟩ := runStages_cons store disabled files version stage rest hp
      rw [hnext]
      exact hstage.1.trans (ih (p := { passed store disabled files stage p with log }) hstage.2)

/-- Stages whose rules ask for nothing in a file do not overwrite it. -/
theorem runStages_reaches_of_spares {disabled : List String} (version : Version) {stages : List Stage}
    (hspares : ∀ stage ∈ stages, stage.rule.id ∉ disabled → path ∈ files.files stage.rule.kind →
      reads path ∧ stage.Spares path)
    (hothers : ∀ q, files.Lists q → q ≠ path → reads q ∧ writes q) (p : Progress σ) :
    store.Reaches reads writes p.tree (runStages store disabled files version stages p).progress.tree := by
  induction stages generalizing p with
  | nil => exact .refl
  | cons stage rest ih =>
    obtain ⟨hhead, hrest⟩ := List.forall_mem_cons.mp hspares
    cases hp : p.cancelled with
    | true => rw [runStages, if_pos hp]
    | false =>
      have hstage : store.Reaches reads writes p.tree (passed store disabled files stage p).tree := by
        unfold passed
        split
        · exact .refl
        · next hdis => exact Aloof.runStage (.inr (hhead (by simpa using hdis))) fun q hq => hothers q ⟨_, hq⟩
      obtain ⟨log, hnext, -⟩ := runStages_cons store disabled files version stage rest hp
      rw [hnext]
      exact hstage.trans (ih hrest { passed store disabled files stage p with log })

end Engine

end Migration

namespace Files

/-- Paths to existing files, each to one of its own. -/
structure Strangers (paths : List Bytes) (fs : FileSystem) : Prop where
  grounded : fs.Grounded
  present : ∀ p ∈ paths, ∃ here data, fs.Leads p here data
  distinct : ∀ p ∈ paths, ∀ q ∈ paths, p ≠ q → ∀ here, fs.locate .thing p = .ok here → fs.locate .thing q ≠ .ok here

namespace Strangers

variable {paths : List Bytes} {fs fs' : FileSystem}

theorem apart (h : Strangers paths fs) (policy : BackupPolicy) : Apart policy paths fs where
  grounded := h.grounded
  known p hp := .inl (h.present p hp)
  distinct := h.distinct
  clear p _ q hq _ hlacks := by
    obtain ⟨here, data, hleads⟩ := h.present q hq
    cases hleads.locate.symm.trans hlacks

theorem of_apart {policy : BackupPolicy} (h : Apart policy paths fs')
    (hpresent : ∀ p ∈ paths, ∃ here data, fs'.Leads p here data) : Strangers paths fs' :=
  ⟨h.grounded, hpresent, h.distinct⟩

/-- Overwriting one of the files leaves the others as they are, and it too unless it is written. -/
theorem overwrite (h : Strangers paths fs) {q content : Bytes} (hq : q ∈ paths) {d d' : Disk} {result : Except Fault Unit}
    (hrun : d.overwrite fs false q content = (result, d', fs')) :
    Strangers paths fs' ∧ (∀ p ∈ paths, p ≠ q → Same fs fs' p) ∧ (d.dryRun = true → fs' = fs) ∧
      ((Same fs fs' q ∧ (result = .ok () → d.dryRun = true)) ∨
        (d.Readable fs → result = .ok () ∧ fs'.read q = .ok content)) := by
  obtain ⟨-, -, ⟨rfl, -, hdry⟩ | ⟨hwriting, made, fs₁, hcreate, -, hwrite⟩⟩ := Disk.overwrite_cases hrun
  · exact ⟨h, fun p _ _ => same_refl fs' p, fun _ => rfl, .inl ⟨same_refl fs' q, hdry⟩⟩
  · have hnot : d.dryRun = true → fs' = fs := by
      intro hdry
      rw [hwriting] at hdry
      cases hdry
    obtain ⟨hapart, hsame⟩ := (h.apart d.policy).create hq hcreate
    have hpresent : ∀ p ∈ paths, ∃ here data, fs₁.Leads p here data := by
      intro p hp
      obtain ⟨here, data, hleads⟩ := h.present p hp
      exact ⟨here, data, (hsame p hp).leads here data hleads⟩
    obtain ⟨rfl, hfailed⟩ | ⟨permissions, hmode, hreplace, hdone⟩ := hwrite
    · exact ⟨.of_apart hapart hpresent, fun p hp _ => hsame p hp, hnot, .inl ⟨hsame q hq, fun hok => absurd hok hfailed⟩⟩
    · obtain ⟨here, data, hleads⟩ := hpresent q hq
      obtain ⟨hapart', ⟨w, hr⟩, hothers⟩ := hapart.replace hq hleads hreplace
      refine ⟨.of_apart hapart' fun p hp => ?_, fun p hp hne => (hsame p hp).trans (hothers p hp hne), hnot,
        .inr fun hreadable => ?_⟩
      · by_cases hne : p = q
        · exact ⟨w, _, hne ▸ hr.leads⟩
        · obtain ⟨here', data', hleads'⟩ := hpresent p hp
          exact ⟨here', data', (hothers p hp hne).leads here' data' hleads'⟩
      · -- the file that was written can be read again
        have hnew := hr.holds (hmode hreadable)
        refine ⟨hdone.resolve_right fun herror => ?_, hnew.read⟩
        obtain ⟨e, htake⟩ := herror
        rw [Snapshot.take_of_holds hnew] at htake
        cases htake

end Strangers

end Files

namespace Workspace.Disk

variable {d d' : Disk} {fs fs' : FileSystem} {path q content : Bytes}

/-- Calls for other files, or readings of all, leave what a file holds and what a reading of it answers. -/
theorem kept_of_calls {reads writes : Bytes → Prop} {paths : List Bytes} (hpath : path ∈ paths)
    (hwrites : ∀ q, writes q → q ∈ paths ∧ q ≠ path) {t u : Disk × FileSystem} (ht : Strangers paths t.2)
    (h : store.Calls reads writes t u) :
    Strangers paths u.2 ∧ Same t.2 u.2 path ∧ (store.read path u).1 = (store.read path t).1 := by
  cases h with
  | @read q hq => exact ⟨ht, same_refl t.2 path, read_again t.1 t.2 q path⟩
  | @overwrite q content hq =>
    obtain ⟨hmem, hne⟩ := hwrites q hq
    show Strangers paths (t.1.overwrite t.2 false q content).2.2 ∧ Same t.2 (t.1.overwrite t.2 false q content).2.2 path ∧
      ((t.1.overwrite t.2 false q content).2.1.read (t.1.overwrite t.2 false q content).2.2 false path).1 =
        (t.1.read t.2 false path).1
    have hfile := file?_overwrite_other false content hne t.1 t.2
    generalize hrun : t.1.overwrite t.2 false q content = done at hfile ⊢
    obtain ⟨result, d, fs⟩ := done
    obtain ⟨hstrangers, hothers, -⟩ := ht.overwrite hmem hrun
    have hsame := hothers path hpath (Ne.symm hne)
    refine ⟨hstrangers, hsame, ?_⟩
    rw [read_result, read_result, hfile, (overwrite_cases hrun).2.1, hsame.take_eq (.inl (ht.present path hpath))]

theorem kept_of_reaches {reads writes : Bytes → Prop} {paths : List Bytes} (hpath : path ∈ paths)
    (hwrites : ∀ q, writes q → q ∈ paths ∧ q ≠ path) {t u : Disk × FileSystem} (ht : Strangers paths t.2)
    (h : store.Reaches reads writes t u) :
    Strangers paths u.2 ∧ Same t.2 u.2 path ∧ (store.read path u).1 = (store.read path t).1 := by
  induction h with
  | refl => exact ⟨ht, same_refl t.2 path, rfl⟩
  | tail _ hcall ih =>
    obtain ⟨hstrangers, hsame, hread⟩ := ih
    obtain ⟨hstrangers', hsame', hread'⟩ := kept_of_calls hpath hwrites hstrangers hcall
    exact ⟨hstrangers', hsame.trans hsame', hread'.trans hread⟩

end Workspace.Disk

namespace Run

section Migrations

variable (settings : Settings) (files : FileSet)

/-- One migration of a run, which goes on with the others unless it reports a fault. -/
theorem runMigrations_cons (m : Migration) (p : Progress) :
    let o := Migration.run Disk.store (settings.disabled.getD []) files m p.cancelled (p.disk, p.files)
    ∃ next : Progress, (next.disk, next.files) = o.tree ∧ next.fault = o.fault ∧ next.cancelled = o.cancelled ∧
      ∀ rest, runMigrations settings files (m :: rest) p =
        if o.fault.isSome then next else runMigrations settings files rest next :=
  ⟨_, rfl, rfl, rfl, fun _ => rfl⟩

theorem runMigrations_cons_of_fault {m : Migration} {p : Progress}
    (h : (Migration.run Disk.store (settings.disabled.getD []) files m p.cancelled (p.disk, p.files)).fault = none) :
    let o := Migration.run Disk.store (settings.disabled.getD []) files m p.cancelled (p.disk, p.files)
    ∃ next : Progress, (next.disk, next.files) = o.tree ∧ next.cancelled = o.cancelled ∧
      ∀ rest, runMigrations settings files (m :: rest) p = runMigrations settings files rest next := by
  obtain ⟨next, htree, -, hcancelled, hrun⟩ := runMigrations_cons settings files m p
  refine ⟨next, htree, hcancelled, fun rest => ?_⟩
  rw [hrun, h, Option.isSome_none, if_neg Bool.false_ne_true]

theorem runMigrations_append (before rest : List Migration) {p : Progress}
    (h : (runMigrations settings files before p).fault = none) :
    runMigrations settings files (before ++ rest) p =
      runMigrations settings files rest (runMigrations settings files before p) := by
  induction before generalizing p with
  | nil => rfl
  | cons m before ih =>
    obtain ⟨next, -, hfault, -, hrun⟩ := runMigrations_cons settings files m p
    rw [List.cons_append, hrun, hrun]
    rw [hrun] at h
    split at h
    · next hsome =>
      rw [hfault] at h
      rw [h] at hsome
      cases hsome
    · next hnone =>
      rw [if_neg hnone, if_neg hnone]
      exact ih h

variable {settings files} {path : Bytes} {reads writes : Bytes → Prop}

/-- A run whose rules ask for nothing in a file does not overwrite it. -/
theorem runMigrations_reaches_of_spares {migrations : List Migration} (p : Progress)
    (hspares : ∀ m ∈ migrations, ∀ stage ∈ m.stages, stage.rule.id ∉ settings.disabled.getD [] →
      path ∈ files.files stage.rule.kind → reads path ∧ stage.Spares path)
    (hothers : ∀ q, files.Lists q → q ≠ path → reads q ∧ writes q) :
    let done := runMigrations settings files migrations p
    Disk.store.Reaches reads writes (p.disk, p.files) (done.disk, done.files) := by
  induction migrations generalizing p with
  | nil => exact .refl
  | cons m rest ih =>
    obtain ⟨hm, hrest⟩ := List.forall_mem_cons.mp hspares
    obtain ⟨next, htree, -, -, hrun⟩ := runMigrations_cons settings files m p
    have hnext : Disk.store.Reaches reads writes (p.disk, p.files) (next.disk, next.files) := by
      rw [htree]
      exact runStages_reaches_of_spares m.version hm hothers ⟨(p.disk, p.files), [], .empty, p.cancelled, []⟩
    rw [hrun]
    split
    · exact hnext
    · exact hnext.trans (ih next hrest)

end Migrations

/-- What a file holds, and what a reading of it answers, is the same in two states of the disk, if the
paths of the set lead to existing files, each to one of its own. -/
def Kept (files : FileSet) (path : Bytes) (t u : Disk × FileSystem) : Prop :=
  ∀ paths, (∀ q, files.Lists q → q ∈ paths) → Strangers paths t.2 →
    Same t.2 u.2 path ∧ (Disk.store.read path u).1 = (Disk.store.read path t).1

/-- A file that a stage gave up is left alone by all later stages of its migration, and by those of the
later migrations of the run unless one of them has a rule that asks for edits in it. -/
theorem failed_left_alone (settings : Settings) (files : FileSet) (start : Progress) (before after : List Migration)
    (m : Migration) {first last : List Stage} {path : Bytes} {state : FileState} (hpath : files.Lists path)
    (hstages : m.stages = first ++ last) (hearly : (runMigrations settings files before start).fault = none)
    (hstate :
      let early := runMigrations settings files before start
      (Migration.run Disk.store (settings.disabled.getD []) files { m with stages := first } early.cancelled
        (early.disk, early.files)).result.file? path = some state)
    (hfailure : state.failure.isSome) :
    let early := runMigrations settings files before start
    let run (m : Migration) :=
      Migration.run Disk.store (settings.disabled.getD []) files m early.cancelled (early.disk, early.files)
    let there := run { m with stages := first }
    let behind := run m
    let whole := runMigrations settings files (before ++ m :: after) start
    let others (q : Bytes) : Prop := files.Lists q ∧ q ≠ path
    behind.result.file? path = some state ∧
      Disk.store.Reaches others others there.tree behind.tree ∧ Kept files path there.tree behind.tree ∧
      ((∀ m' ∈ after, ∀ stage ∈ m'.stages, stage.rule.id ∉ settings.disabled.getD [] →
          path ∈ files.files stage.rule.kind → stage.Spares path) →
        Disk.store.Reaches files.Lists others behind.tree (whole.disk, whole.files) ∧
          Kept files path there.tree (whole.disk, whole.files)) := by
  intro early run there behind whole others
  have hothers (q : Bytes) (hq : files.Lists q) (hne : q ≠ path) : others q ∧ others q := ⟨⟨hq, hne⟩, hq, hne⟩
  let start' : Migration.Progress (Disk × FileSystem) := ⟨(early.disk, early.files), [], .empty, early.cancelled, []⟩
  let p := (runStages Disk.store (settings.disabled.getD []) files m.version first start').progress
  have hbehind : (runStages Disk.store (settings.disabled.getD []) files m.version m.stages start').progress =
      (runStages Disk.store (settings.disabled.getD []) files m.version last p).progress := by
    rw [hstages, runStages_append]
  have hst : p.states.at? path = some state := hstate
  have hsame : behind.result.file? path = some state := by
    have hlast := runStages_of_failure Disk.store (settings.disabled.getD []) files m.version last hst hfailure
    rw [← hbehind] at hlast
    exact hlast
  have hreaches : Disk.store.Reaches others others there.tree behind.tree := by
    have hlast : Disk.store.Reaches others others p.tree (runStages Disk.store (settings.disabled.getD []) files
        m.version last p).progress.tree := runStages_reaches_of_failure _ m.version hst hfailure last hothers
    rw [← hbehind] at hlast
    exact hlast
  have hkept (paths : List Bytes) (hlists : ∀ q, files.Lists q → q ∈ paths) (hstrangers : Strangers paths there.tree.2) :=
    Disk.kept_of_reaches (hlists path hpath) (fun q hq => ⟨hlists q hq.1, hq.2⟩) hstrangers hreaches
  refine ⟨hsame, hreaches, fun paths hlists hstrangers => (hkept paths hlists hstrangers).2, fun hspares => ?_⟩
  have hlater : Disk.store.Reaches files.Lists others behind.tree (whole.disk, whole.files) := by
    obtain ⟨next, htree, -, -, hrun⟩ := runMigrations_cons settings files m early
    have hwhole : whole = if behind.fault.isSome then next else runMigrations settings files after next :=
      (runMigrations_append settings files before (m :: after) hearly).trans (hrun after)
    rw [hwhole, ← htree]
    split
    · exact .refl
    · exact runMigrations_reaches_of_spares next
        (fun m' hm' stage hstage hon hmem => ⟨hpath, hspares m' hm' stage hstage hon hmem⟩)
        fun q hq hne => ⟨hq, hq, hne⟩
  refine ⟨hlater, fun paths hlists hstrangers => ?_⟩
  obtain ⟨hstrangers', hmid, hread⟩ := hkept paths hlists hstrangers
  obtain ⟨-, hend, hread'⟩ := Disk.kept_of_reaches (hlists path hpath) (fun q hq => ⟨hlists q hq.1, hq.2⟩) hstrangers' hlater
  exact ⟨hmid.trans hend, hread'.trans hread⟩

/-- A stage with the same answer for every file. -/
def giving (edits : Except Fault (List Change)) : Stage := ⟨⟨"rule", "", "", .style, fun _ => ⟨edits, false⟩⟩, ""⟩

def loneFile : FileSet := ⟨[], ["b"], []⟩

theorem loneFile_files : loneFile.files .style = [bytes "b"] := List.mergeSort_singleton ..

theorem loneFile_lists {q : Bytes} : loneFile.Lists q ↔ q ∈ [bytes "b"] := by
  constructor
  · rintro ⟨kind, hq⟩
    cases kind with
    | style => exact loneFile_files ▸ hq
    | template => exact absurd hq (by simp [loneFile, FileSet.files, Bytes.sort])
    | source => exact absurd hq (by simp [loneFile, FileSet.files, Bytes.sort])
    | other => exact absurd hq List.not_mem_nil
  · intro hq
    exact ⟨.style, loneFile_files ▸ hq⟩

theorem lone_strangers : Strangers [bytes "b"] lone := by
  refine ⟨lone_grounded, fun p hp => ?_, fun p hp q hq hne => ?_⟩
  · rw [List.mem_singleton.mp hp]
    exact ⟨_, _, lone_holds.toLeads⟩
  · exact absurd ((List.mem_singleton.mp hp).trans (List.mem_singleton.mp hq).symm) hne

theorem run_giving_error {σ : Type} (store : Store σ) (version : Version) (e : Fault) (t : σ) :
    let o := Migration.run store [] loneFile ⟨version, "", [giving (.error e)]⟩ false t
    o.tree = (store.read "b" t).2 ∧ o.fault = none ∧ o.cancelled = false ∧
      ∃ state, o.result.file? "b" = some state ∧ state.failure.isSome := by
  rcases hread : store.read "b" t with ⟨answer, u⟩
  cases answer <;> simp [Migration.run, runStages, runStage, giving, loneFile_files, visit, States.see, States.get, hread,
    applyRule, Except.mapError, Batch.drain, Batch.flush_empty, record, States.fail, States.update, Result.file?]

theorem run_giving_edit_of_reads {σ : Type} {store : Store σ} (version : Version) {t u w : σ}
    (hread : store.read "b" t = (.ok "x", u)) (hagain : store.read "b" u = (.ok "x", u))
    (hwrite : store.overwrite "b" "y" u = (.ok (), w)) :
    let o := Migration.run store [] loneFile ⟨version, "", [giving (.ok [.replace 0 "x" "y"])]⟩ false t
    o.tree = w ∧ o.fault = none := by
  have happly : applyChanges "x" [.replace 0 "x" "y"] = .ok "y" := by cbv
  have hne : bytes "x" ≠ bytes "y" := by decide
  have hadd : Batch.empty.add "b" [.replace 0 "x" "y"] = ⟨[("b", [.replace 0 "x" "y"])]⟩ := rfl
  simp [Migration.run, runStages, runStage, giving, loneFile_files, visit, States.see, States.get, hread, hagain, applyRule,
    Except.mapError, Batch.drain, hadd, Batch.flush_singleton, Batch.flushPath, happly, hne, hwrite]

theorem run_giving_edit {σ : Type} {store : Store σ} (version : Version) {t u : σ}
    (hread : store.read "b" t = (.ok "x", t)) (hwrite : store.overwrite "b" "y" t = (.ok (), u)) :
    let o := Migration.run store [] loneFile ⟨version, "", [giving (.ok [.replace 0 "x" "y"])]⟩ false t
    o.tree = u ∧ o.fault = none := run_giving_edit_of_reads version hread hread hwrite

/-- One rule gives a file up, the next one of the migration has an edit for it. -/
theorem failed_left_alone_lone :
    let fails := giving (.error (.plain "no"))
    let renames := giving (.ok [.replace 0 "x" "y"])
    let start : Progress := ⟨.start false .standard, lone, [], [], false, none, []⟩
    let there := Migration.run Disk.store [] loneFile ⟨⟨1, 0, 0, []⟩, "", [fails]⟩ false (start.disk, start.files)
    let whole := runMigrations .standard loneFile [⟨⟨1, 0, 0, []⟩, "", [fails, renames]⟩] start
    there.tree.2 = lone ∧ whole.files.read "b" = .ok "x" := by
  intro fails renames start there whole
  obtain ⟨htree, -, -, state, hstate, hfailure⟩ := run_giving_error Disk.store ⟨1, 0, 0, []⟩ (.plain "no")
    (start.disk, start.files)
  have hthere : there.tree.2 = lone := congrArg Prod.snd htree
  have hpath : loneFile.Lists "b" := loneFile_lists.mpr (List.mem_singleton_self _)
  have hstages : [fails, renames] = [fails] ++ [renames] := rfl
  obtain ⟨-, -, -, hwhole⟩ := failed_left_alone .standard loneFile start [] [] ⟨⟨1, 0, 0, []⟩, "", [fails, renames]⟩
    hpath hstages rfl hstate hfailure
  obtain ⟨-, hkept⟩ := hwhole fun m hm => absurd hm List.not_mem_nil
  obtain ⟨hsame, -⟩ := hkept [bytes "b"] (fun q => loneFile_lists.mp) (hthere ▸ lone_strangers)
  have hholds := hsame.holds (hthere ▸ lone_holds)
  exact ⟨hthere, hholds.read⟩

/-- The file is read, read again and overwritten. -/
theorem lone_calls : ∃ d d', (Disk.start false .standard).read lone false "b" = (.ok "x", d) ∧
    Disk.store.read "b" (d, lone) = (.ok "x", d, lone) ∧
    Disk.store.overwrite "b" "y" (d, lone) = (.ok (), d', loneWritten) := by
  let tracked : Tracked := ⟨"b", "x", "x", .ofFile "b" ⟨"x", 0o644, 0⟩⟩
  let d := (Disk.start false .standard).track tracked
  have hfile : d.file? "b" = some tracked := Disk.file?_track _ _ _
  have hfirst : (Disk.start false .standard).read lone false "b" = (.ok "x", d) := Disk.read_fresh rfl lone_holds
  have hsame : d.track tracked = d := Disk.Single.track_self (Disk.Single.track (by simp [Disk.Single, Disk.start]) _) hfile
  have hagain : Disk.store.read "b" (d, lone) = (.ok "x", d, lone) := by
    have hread : d.read lone false "b" = (.ok "x", d) := by
      unfold Disk.read Disk.fetch
      rw [Disk.track_dryRun, Snapshot.take_of_holds lone_holds, hfile]
      exact congrArg (Prod.mk _) hsame
    simp only [Disk.store, hread]
  have hwrite : ∃ d', Disk.store.overwrite "b" "y" (d, lone) = (.ok (), d', loneWritten) := by
    have hknown : d.known lone false "b" = .ok (tracked, d) := by rw [Disk.known, hfile]
    have hcommit : ∃ d', d.commit lone false tracked "y" = (.ok (), d', loneWritten) :=
      ⟨_, Disk.commit_eq d lone_holds.toLeads rfl lone_backup lone_replace loneWritten_holds⟩
    obtain ⟨d', hcommit⟩ := hcommit
    refine ⟨d', ?_⟩
    show d.overwrite lone false "b" "y" = _
    rw [Disk.overwrite_eq, hknown]
    dsimp only
    rw [Disk.track_dryRun, if_neg (by simp [Disk.start])]
    exact hcommit
  obtain ⟨d', hwrite⟩ := hwrite
  exact ⟨d, d', hfirst, hagain, hwrite⟩

/-- The next migration takes the file up again and writes it. -/
theorem failed_taken_up :
    let first : Migration := ⟨⟨1, 0, 0, []⟩, "", [giving (.error (.plain "no"))]⟩
    let next : Migration := ⟨⟨2, 0, 0, []⟩, "", [giving (.ok [.replace 0 "x" "y"])]⟩
    let start : Progress := ⟨.start false .standard, lone, [], [], false, none, []⟩
    (∃ state, (Migration.run Disk.store [] loneFile first false (start.disk, start.files)).result.file? "b" = some state ∧
        state.failure.isSome) ∧
      (runMigrations .standard loneFile [first] start).files.read "b" = .ok "x" ∧
      (runMigrations .standard loneFile [first, next] start).files.read "b" = .ok "y" := by
  intro first next start
  obtain ⟨d, d', hfirst, hagain, hwrite⟩ := lone_calls
  obtain ⟨htree, hfault, hcancelled, hstate⟩ := run_giving_error Disk.store ⟨1, 0, 0, []⟩ (.plain "no")
    (start.disk, start.files)
  obtain ⟨early, hearly, hlive, hrun⟩ := runMigrations_cons_of_fault .standard loneFile (m := first) (p := start) hfault
  have hthere : (early.disk, early.files) = (d, lone) := by
    rw [hearly]
    refine htree.trans ?_
    show ((start.disk.read lone false "b").2, lone) = _
    rw [hfirst]
  obtain ⟨hwritten, hdone⟩ := run_giving_edit ⟨2, 0, 0, []⟩ hagain hwrite
  have hnext : Migration.run Disk.store [] loneFile next early.cancelled (early.disk, early.files) =
      Migration.run Disk.store [] loneFile next false (d, lone) := by
    rw [hthere, hlive]
    exact congrArg (fun c => Migration.run Disk.store [] loneFile next c (d, lone)) hcancelled
  obtain ⟨late, hlate, -, hrun'⟩ := runMigrations_cons_of_fault .standard loneFile (m := next) (p := early)
    ((congrArg Migration.Outcome.fault hnext).trans hdone)
  refine ⟨hstate, ?_, ?_⟩
  · rw [hrun, show (runMigrations .standard loneFile [] early).files = lone from congrArg Prod.snd hthere]
    exact lone_holds.read
  · have hfiles : late.files = loneWritten :=
      congrArg Prod.snd (hlate.trans ((congrArg Migration.Outcome.tree hnext).trans hwritten))
    rw [hrun, hrun', show (runMigrations .standard loneFile [] late).files = loneWritten from hfiles]
    exact loneWritten_holds.read

end Run

end Codemod
