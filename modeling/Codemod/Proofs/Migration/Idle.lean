import Codemod.Proofs.Migration.FileStep
import Codemod.Proofs.Migration.Tally

namespace Codemod.Migration

open Edit Markup Workspace

/-- The rule of a stage asks for nothing that would change a content. -/
def Stage.quiet (stage : Stage) (path content : Bytes) : Bool :=
  (stage.edits? path content false).bind (fun changes => (applyChanges content changes).toOption) = some content

theorem Stage.quiet_iff {stage : Stage} {path content : Bytes} : stage.quiet path content = true ↔
    ∃ changes, stage.edits? path content false = some changes ∧ applyChanges content changes = .ok content := by
  have hok {changes : List Change} :
      (applyChanges content changes).toOption = some content ↔ applyChanges content changes = .ok content := by
    cases applyChanges content changes with
    | error e => simp [Except.toOption]
    | ok next => simp [Except.toOption]
  simp only [Stage.quiet, decide_eq_true_eq, Option.bind_eq_some_iff, hok]

/-- Nothing has happened to a file yet. -/
def FileView.Fresh (v : FileView) : Prop := ∀ st, v.state = some st → st.touched = [] ∧ st.failure = none

theorem FileView.Fresh.current {v : FileView} (h : v.Fresh) (path : Bytes) (kind : Kind) :
    (v.current path kind).touched = [] ∧ (v.current path kind).failure = none := by
  unfold FileView.current
  cases hst : v.state with
  | none => exact ⟨rfl, rfl⟩
  | some st => exact h st hst

section File

variable {free : Prop} {path : Bytes} {stage : Stage} {looks : Bool} {v u : FileView} {writes : List (Bytes × Nat)}

/-- The file is there and the rule of a stage has nothing to change in it. -/
def FileView.Settled (v : FileView) (path : Bytes) (stage : Stage) : Prop :=
  ∃ f, v.file = some f ∧ stage.quiet path f.content = true

/-- A fresh file stays as it is in a stage that is quiet about it. -/
theorem FileStep.idle_of_settled (hfree : free) (h : FileStep free path stage looks v u writes) (hv : v.Fresh)
    (hquiet : looks = true → v.Settled path stage) : writes = [] ∧ u.file = v.file ∧ u.Fresh := by
  obtain ⟨htouched, hfailure⟩ := hv.current path stage.rule.kind
  have hfresh : FileView.Fresh ⟨v.file, some (v.current path stage.rule.kind)⟩ := by
    rintro st ⟨⟩
    exact ⟨htouched, hfailure⟩
  cases h with
  | unseen => exact ⟨rfl, rfl, hv⟩
  | passedOver => exact ⟨rfl, rfl, hfresh⟩
  | kept => exact ⟨rfl, rfl, hfresh⟩
  | failed seen _ e why =>
    obtain ⟨f, hf, hf'⟩ := hquiet seen
    obtain ⟨changes, hasks, happly⟩ := Stage.quiet_iff.mp hf'
    rw [htouched] at why
    exact absurd happly (why hfree f changes f.content hf (by simpa using hasks))
  | @written seen _ f changes next before asks apply changed =>
    obtain ⟨g, hg, hg'⟩ := hquiet seen
    obtain rfl : f = g := Option.some.inj (before.symm.trans hg)
    obtain ⟨changes', hasks, happly⟩ := Stage.quiet_iff.mp hg'
    rw [htouched] at asks
    obtain rfl : changes' = changes := Option.some.inj (hasks.symm.trans (by simpa using asks))
    exact absurd (Except.ok.inj (happly.symm.trans apply)) changed

/-- A stage that neither writes a fresh file nor gives it up is quiet about it. -/
theorem FileStep.settled_of_idle (h : FileStep free path stage looks v u []) (hv : v.Fresh)
    (hlive : ∀ st, u.state = some st → st.failure = none) :
    (looks = true → v.Settled path stage) ∧ u.file = v.file ∧ u.Fresh := by
  obtain ⟨htouched, hfailure⟩ := hv.current path stage.rule.kind
  cases h with
  | unseen seen => exact ⟨fun hlooks => (by rw [seen] at hlooks; cases hlooks), rfl, hv⟩
  | passedOver _ dead =>
    rw [hfailure] at dead
    cases dead
  | kept _ _ before asks apply =>
    rw [htouched] at asks
    refine ⟨fun _ => ⟨_, before, Stage.quiet_iff.mpr ⟨_, by simpa using asks, apply⟩⟩, rfl, ?_⟩
    rintro st ⟨⟩
    exact ⟨htouched, hfailure⟩
  | failed => cases hlive _ rfl

theorem History.of_cons (path : Bytes) (x : Stage × List (Bytes × Nat)) (rest : History) :
    History.of path (x :: rest) = (x.2.filter (·.1 = path)).map (fun write => (x.1, write.2)) ++ History.of path rest :=
  rfl

/-- A file goes through its stages untouched just when all those that look at it are quiet about it. -/
theorem FileRun.idle_iff {looks : Stage → Bool} {h : History} (run : FileRun free looks path h v u) (hfree : free)
    (hv : v.Fresh) : (h.of path = [] ∧ ∀ st, u.state = some st → st.failure = none) ↔
      ∀ x ∈ h, looks x.1 = true → v.Settled path x.1 := by
  induction run with
  | nil v =>
    refine ⟨fun _ x hx => absurd hx List.not_mem_nil, fun _ => ⟨rfl, fun st hst => (hv st hst).2⟩⟩
  | @cons stage writes rest v w u step run ih =>
    rw [History.of_cons, List.append_eq_nil_iff, List.map_eq_nil_iff, List.forall_mem_cons]
    constructor
    · rintro ⟨⟨hwrites, hrest⟩, hlive⟩
      -- a failure here would still be there at the end
      have hlive' : ∀ st, w.state = some st → st.failure = none := by
        intro st hst
        by_contra hne
        have hsame := run.eq_of_failure hst (Option.isSome_iff_ne_none.mpr hne)
        exact hne (hlive st (hsame ▸ hst))
      dsimp only at hwrites
      rw [hwrites] at step
      obtain ⟨hquiet, hfile, hw⟩ := step.settled_of_idle hv hlive'
      refine ⟨hquiet, fun x hx hlooks => ?_⟩
      obtain ⟨f, hf, hf'⟩ := (ih hw).mp ⟨hrest, hlive⟩ x hx hlooks
      exact ⟨f, hfile ▸ hf, hf'⟩
    · rintro ⟨hquiet, hrest⟩
      obtain ⟨hwrites, hfile, hw⟩ := step.idle_of_settled hfree hv hquiet
      obtain ⟨hnone, hlive⟩ := (ih hw).mpr fun x hx hlooks => by
        obtain ⟨f, hf, hf'⟩ := hrest x hx hlooks
        exact ⟨f, hfile.trans hf, hf'⟩
      exact ⟨⟨hwrites, hnone⟩, hlive⟩

theorem FileRun.file_of_settled {looks : Stage → Bool} {h : History} (run : FileRun free looks path h v u)
    (hfree : free) (hv : v.Fresh) (hquiet : ∀ x ∈ h, looks x.1 = true → v.Settled path x.1) :
    u.file = v.file ∧ u.Fresh := by
  induction run with
  | nil v => exact ⟨rfl, hv⟩
  | cons step run ih =>
    obtain ⟨hhead, hrest⟩ := List.forall_mem_cons.mp hquiet
    obtain ⟨-, hfile, hw⟩ := step.idle_of_settled hfree hv hhead
    obtain ⟨hlast, hu⟩ := ih hw fun x hx hlooks => by
      obtain ⟨f, hf, hf'⟩ := hrest x hx hlooks
      exact ⟨f, hfile.trans hf, hf'⟩
    exact ⟨hlast.trans hfile, hu⟩

end File

/-- A run that reports nothing, gives up nothing and leaves every file as it was. -/
structure Outcome.Idle (before : Memory) (o : Outcome Memory) : Prop where
  stages : ∀ r ∈ o.result.stages, r.changes = 0 ∧ r.files = []
  failed : o.result.failed = []
  files : ∀ path, o.tree.file? path = before.file? path

theorem Result.failed_eq_nil_iff (r : Result) : r.failed = [] ↔ ∀ st ∈ r.states, st.failure = none := by
  simp [Result.failed, Result.files]

/-- A run is idle just when every stage is quiet about every file that it looks at. -/
theorem run_idle_iff (disabled : List String) {files : FileSet} (hd : files.Distinct) (m : Migration) (tree : Memory)
    (hun : (run Memory.store disabled files m false tree).cancelled = false) :
    (run Memory.store disabled files m false tree).Idle tree ↔
      ∀ stage ∈ m.stages, ∀ path, looks disabled files path stage = true →
        ∃ f, tree.file? path = some f ∧ stage.quiet path f.content = true := by
  have hstore : Memory.store.refusing (fun _ => none) (fun _ => none) = Memory.store := rfl
  rw [← hstore] at hun ⊢
  obtain ⟨history, hstages, hreports, -, hruns⟩ := runStages_history hd m.stages hun
  have hfresh (path : Bytes) : FileView.Fresh ⟨tree.file? path, none⟩ := by rintro st ⟨⟩
  have hstart : Sums [] 0 := ⟨List.nodup_nil, rfl⟩
  have hsums := hstart.runStages (Memory.store.refusing (fun _ => none) (fun _ => none))
    (p := ⟨tree, [], .empty, false, []⟩) disabled files m.version m.stages
  constructor
  · intro hidle stage hstage path hlooks
    have hnone : ∀ x ∈ history, x.2 = [] := by
      intro x hx
      have hfiles := (hidle.stages _ (hreports ▸ List.mem_map_of_mem hx)).2
      exact List.map_eq_nil_iff.mp hfiles
    have hof : history.of path = [] := by
      refine List.flatMap_eq_nil_iff.mpr fun x hx => ?_
      rw [hnone x hx]
      rfl
    rw [← hstages] at hstage
    obtain ⟨x, hx, rfl⟩ := List.mem_map.mp hstage
    refine ((hruns path).idle_iff ⟨rfl, rfl⟩ (hfresh path)).mp ⟨hof, fun st hst => ?_⟩ x hx hlooks
    exact (Result.failed_eq_nil_iff _).mp hidle.failed st (List.mem_of_find?_eq_some hst)
  · intro hquiet
    have hsettled (path : Bytes) : ∀ x ∈ history, looks disabled files path x.1 = true →
        FileView.Settled ⟨tree.file? path, none⟩ path x.1 :=
      fun x hx hlooks => hquiet x.1 (hstages ▸ List.mem_map_of_mem hx) path hlooks
    have hpath (path : Bytes) := ((hruns path).idle_iff ⟨rfl, rfl⟩ (hfresh path)).mpr (hsettled path)
    refine ⟨fun r hr => ?_, ?_, fun path => ?_⟩
    · obtain ⟨x, hx, rfl⟩ := List.mem_map.mp ((congrArg (r ∈ ·) hreports).mp hr)
      have hnone : x.2 = [] := by
        refine List.eq_nil_iff_forall_not_mem.mpr fun write hwrite => ?_
        have hof := List.flatMap_eq_nil_iff.mp (hpath write.1).1 x hx
        have hfilter := List.map_eq_nil_iff.mp hof
        exact List.filter_eq_nil_iff.mp hfilter write hwrite (by simp)
      rw [Stage.report, hnone]
      exact ⟨rfl, rfl⟩
    · rw [Result.failed_eq_nil_iff]
      intro st hst
      exact (hpath st.path).2 st (hsums.at?_of_mem hst)
    · exact ((hruns path).file_of_settled ⟨rfl, rfl⟩ (hfresh path) (hsettled path)).1

section Uncancelled

variable {σ : Type} {store : Store σ} {stage : Stage}

theorem visit_uncancelled (hrule : ∀ c, (stage.rule.apply c).cancels = false) {p : Progress σ} (q : Bytes)
    (hp : p.cancelled = false) : (visit store stage p q).cancelled = false := by
  obtain ⟨log, h⟩ := visit_eq store stage q hp
  have hverdict : (verdictAt store stage p q).cancels = false := by
    unfold verdictAt verdictOn
    split
    · rfl
    · unfold applyRule
      dsimp only
      split
      · rfl
      · exact hrule _
  rw [h]
  split
  · exact hp
  · dsimp only
    split
    · exact hverdict
    · exact hverdict

theorem foldl_visit_uncancelled (hrule : ∀ c, (stage.rule.apply c).cancels = false) (paths : List Bytes)
    {p : Progress σ} (hp : p.cancelled = false) : (paths.foldl (visit store stage) p).cancelled = false := by
  induction paths generalizing p with
  | nil => exact hp
  | cons q rest ih => exact ih (visit_uncancelled hrule q hp)

/-- A run whose rules never cancel is not cancelled. -/
theorem runStages_uncancelled (disabled : List String) (files : FileSet) (version : Version) {stages : List Stage}
    (hrules : ∀ stage ∈ stages, ∀ c, (stage.rule.apply c).cancels = false) {p : Progress σ}
    (hp : p.cancelled = false) : (runStages store disabled files version stages p).progress.cancelled = false := by
  induction stages generalizing p with
  | nil => exact hp
  | cons stage rest ih =>
    obtain ⟨hrule, hrest⟩ := List.forall_mem_cons.mp hrules
    obtain ⟨log, hnext, -⟩ := runStages_cons store disabled files version stage rest hp
    have hpassed : (passed store disabled files stage p).cancelled = false := by
      unfold passed
      split
      · exact hp
      · rw [runStage_cancelled]
        exact foldl_visit_uncancelled hrule _ hp
    rw [hnext]
    exact ih hrest hpassed

end Uncancelled

end Codemod.Migration
