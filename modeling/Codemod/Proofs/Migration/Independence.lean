import Mathlib
import Codemod.Migration.Engine
import Codemod.Proofs.Edit.Flush

namespace Codemod

open Edit Workspace

/-- The files of a set that are one path. -/
def Workspace.FileSet.only (path : Bytes) (s : FileSet) : FileSet :=
  ⟨s.templates.filter (· = path), s.styles.filter (· = path), s.sources.filter (· = path)⟩

theorem Workspace.FileSet.files_only (path : Bytes) (s : FileSet) (kind : Kind) :
    (s.only path).files kind = (s.files kind).filter (· = path) := by
  cases kind with
  | template => exact Bytes.sort_filter s.templates path
  | style => exact Bytes.sort_filter s.styles path
  | source => exact Bytes.sort_filter s.sources path
  | other => rfl

/-- A loop whose steps matter only for some elements, run beside the loop over these. -/
theorem foldl_filter_rel {α τ : Type} (R : τ → τ → Prop) (step : τ → α → τ) (keep : α → Bool)
    (hskip : ∀ s s' x, keep x = false → R s s' → R (step s x) s')
    (hkeep : ∀ s s' x, keep x = true → R s s' → R (step s x) (step s' x))
    (l : List α) {s s' : τ} (h : R s s') : R (l.foldl step s) ((l.filter keep).foldl step s') := by
  induction l generalizing s s' with
  | nil => exact h
  | cons x l ih =>
    cases hx : keep x with
    | false =>
      rw [List.filter_cons_of_neg (by simp [hx]), List.foldl_cons]
      exact ih (hskip s s' x hx h)
    | true =>
      rw [List.filter_cons_of_pos hx, List.foldl_cons, List.foldl_cons]
      exact ih (hkeep s s' x hx h)

namespace Migration

namespace States

/-- The state with which a file begins. -/
def begun (path : Bytes) (kind : Kind) : FileState := ⟨path, kind, [], 0, [], none⟩

/-- The state of a file that has one. -/
def at? (s : States) (path : Bytes) : Option FileState := s.find? (·.path = path)

theorem get_eq (s : States) (path : Bytes) (kind : Kind) : s.get path kind = (s.at? path).getD (begun path kind) := rfl

theorem path_of_at? {s : States} {path : Bytes} {x : FileState} (h : s.at? path = some x) : x.path = path := by
  simpa using List.find?_some h

theorem at?_see (s : States) (path : Bytes) (kind : Kind) : (s.see path kind).at? path = some (s.get path kind) := by
  rw [get_eq]
  unfold see
  cases h : s.at? path with
  | none =>
    have hany : s.any (·.path = path) = false := by
      rw [List.any_eq_false]
      simpa using List.find?_eq_none.mp h
    rw [hany, if_neg (by simp), at?, List.find?_append]
    have h' : s.find? (·.path = path) = none := h
    rw [h']
    simp [begun]
  | some x =>
    have hany : s.any (·.path = path) = true :=
      List.any_eq_true.mpr ⟨x, List.mem_of_find?_eq_some h, by simpa using path_of_at? h⟩
    rw [hany, if_pos rfl, h]
    rfl

theorem get_see (s : States) (path : Bytes) (kind : Kind) : (s.see path kind).get path kind = s.get path kind := by
  rw [get_eq, at?_see]
  rfl

theorem at?_see_other {path q : Bytes} (hq : q ≠ path) (s : States) (kind : Kind) :
    (s.see q kind).at? path = s.at? path := by
  unfold see
  split
  · rfl
  · rw [at?, List.find?_append]
    simp [hq, at?]

theorem at?_map (s : States) (path : Bytes) (g : FileState → FileState) (hg : ∀ x, (g x).path = x.path) :
    States.at? (s.map g) path = (s.at? path).map g := by
  rw [at?, List.find?_map]
  congr 2
  funext x
  simp [hg x]

theorem at?_update (s : States) (path : Bytes) (kind : Kind) {f : FileState → FileState}
    (hf : ∀ x, (f x).path = x.path) : (s.update path kind f).at? path = some (f (s.get path kind)) := by
  have hpath : (s.get path kind).path = path := path_of_at? (at?_see s path kind)
  rw [update, at?_map _ _ _ (by intro x; split; exacts [hf x, rfl]), at?_see, Option.map_some, if_pos hpath]

theorem at?_update_other {path q : Bytes} (hq : q ≠ path) (s : States) (kind : Kind) {f : FileState → FileState}
    (hf : ∀ x, (f x).path = x.path) : (s.update q kind f).at? path = s.at? path := by
  rw [update, at?_map _ _ _ (by intro x; split; exacts [hf x, rfl]), at?_see_other hq]
  cases h : s.at? path with
  | none => rfl
  | some x => rw [Option.map_some, if_neg fun he => hq (he.symm.trans (path_of_at? h))]

end States

/-- What a written file's state gains. -/
def FileState.advance (stage : Stage) (applied : Nat) (x : FileState) : FileState :=
  { x with
    changes := x.changes + applied
    stages := x.stages ++ [stage.rule.id]
    touched := if stage.group.isEmpty || x.touched.contains stage.group then x.touched
      else x.touched ++ [stage.group] }

def FileState.failAt (stage : Stage) (e : Fault) (x : FileState) : FileState :=
  { x with failure := some (stage.rule.id, e) }

theorem record_eq (stage : Stage) (flushed : Batch.Flushed) (states : States) :
    record stage flushed states =
      flushed.changed.foldl (fun s x => s.update x.1 stage.rule.kind (FileState.advance stage x.2))
        (flushed.errors.foldl (fun s x => s.update x.1 stage.rule.kind (FileState.failAt stage (flushFault x.2)))
          states) := rfl

/-- Updates of many files, seen from one of them. -/
theorem at?_foldl_update {α : Type} (path : Bytes) (kind : Kind) (f : α → FileState → FileState)
    (hf : ∀ a x, (f a x).path = x.path) (l : List (Bytes × α)) {s s' : States} (h : s.at? path = s'.at? path) :
    (l.foldl (fun s x => s.update x.1 kind (f x.2)) s).at? path =
      ((l.filter (·.1 = path)).foldl (fun s x => s.update x.1 kind (f x.2)) s').at? path := by
  refine foldl_filter_rel (fun s s' : States => s.at? path = s'.at? path) _ _ ?_ ?_ l h
  · intro s s' x hx hs
    have hne : x.1 ≠ path := by simpa using hx
    rw [States.at?_update_other hne s kind (hf x.2), hs]
  · intro s s' x hx hs
    obtain rfl : x.1 = path := by simpa using hx
    rw [States.at?_update _ _ _ (hf x.2), States.at?_update _ _ _ (hf x.2), States.get_eq, States.get_eq, hs]

theorem at?_record (stage : Stage) (flushed : Batch.Flushed) (path : Bytes) {s s' : States}
    (h : s.at? path = s'.at? path) :
    (record stage flushed s).at? path = (record stage (flushed.only path) s').at? path := by
  have hfailed := at?_foldl_update path stage.rule.kind (fun e => FileState.failAt stage (flushFault e))
    (fun _ _ => rfl) flushed.errors h
  exact at?_foldl_update path stage.rule.kind (FileState.advance stage) (fun _ _ => rfl) flushed.changed hfailed

section TwoRuns

variable {σ β : Type} {store : Store σ} {file : Bytes → σ → β}

/-- Two runs on their way that agree on one path; the second one has changes for no other. -/
structure Agree (file : Bytes → σ → β) (path : Bytes) (a b : Progress σ) : Prop where
  file : file path a.tree = file path b.tree
  state : a.states.at? path = b.states.at? path
  batch : a.batch.only path = b.batch
  cancelled : a.cancelled = b.cancelled

theorem visit_cancelled {stage : Stage} {p : Progress σ} {q : Bytes}
    (h : (visit store stage p q).cancelled = false) : p.cancelled = false := by
  unfold visit at h
  split at h
  · exact h
  · next hp => simpa using hp

/-- The verdict of a rule on a file as the store gives it. -/
def verdictOn (stage : Stage) (path : Bytes) (state : FileState) : Except Fault Bytes → Verdict
  | .error e => ⟨.error (.filed .readFailure e), false⟩
  | .ok content => applyRule stage content path state

/-- What the rule of a stage says to a file on its way. -/
def verdictAt (store : Store σ) (stage : Stage) (p : Progress σ) (q : Bytes) : Verdict :=
  verdictOn stage q (p.states.get q stage.rule.kind) (store.read q p.tree).1

/-- The file was given up at an earlier stage. -/
def givenUp (stage : Stage) (p : Progress σ) (q : Bytes) : Bool := (p.states.get q stage.rule.kind).failure.isSome

/-- A visit passes over a file that was given up, gives one up, or queues its edits. -/
theorem visit_eq (store : Store σ) (stage : Stage) {p : Progress σ} (q : Bytes) (hp : p.cancelled = false) :
    ∃ log, visit store stage p q =
      if givenUp stage p q then { p with states := p.states.see q stage.rule.kind }
      else
        let verdict := verdictAt store stage p q
        match verdict.edits with
        | .error e => ⟨(store.read q p.tree).2,
            (p.states.see q stage.rule.kind).update q stage.rule.kind (FileState.failAt stage e), p.batch,
            verdict.cancels, log⟩
        | .ok changes => ⟨(store.read q p.tree).2, p.states.see q stage.rule.kind, p.batch.add q changes,
            verdict.cancels, log⟩ := by
  rcases hread : store.read q p.tree with ⟨content, tree⟩
  unfold visit verdictAt givenUp
  rw [hread]
  dsimp only
  rw [if_neg (by simp [hp]), States.get_see]
  cases (p.states.get q stage.rule.kind).failure.isSome with
  | true => exact ⟨p.log, rfl⟩
  | false =>
    cases content with
    | error e => exact ⟨_, rfl⟩
    | ok content =>
      dsimp only [verdictOn]
      cases (applyRule stage content q (p.states.get q stage.rule.kind)).edits with
      | error e => exact ⟨_, rfl⟩
      | ok changes => exact ⟨_, rfl⟩

/-- A visit to another file leaves the state of a file and what waits for it. -/
theorem visit_elsewhere (store : Store σ) {path q : Bytes} (hq : q ≠ path) (stage : Stage) {p : Progress σ}
    (hp : p.cancelled = false) :
    (visit store stage p q).states.at? path = p.states.at? path ∧
      (visit store stage p q).batch.only path = p.batch.only path := by
  have hsee := States.at?_see_other hq p.states stage.rule.kind
  obtain ⟨log, hvisit⟩ := visit_eq store stage q hp
  rw [hvisit]
  split
  · exact ⟨hsee, rfl⟩
  · dsimp only
    cases (verdictAt store stage p q).edits with
    | error e =>
      have hfail := States.at?_update_other hq (p.states.see q stage.rule.kind) stage.rule.kind
        (f := FileState.failAt stage e) fun _ => rfl
      exact ⟨hfail.trans hsee, rfl⟩
    | ok changes => exact ⟨hsee, Batch.only_add_other hq p.batch changes⟩

theorem visit_file (hs : store.Separable file) (stage : Stage) (p : Progress σ) (q path : Bytes) :
    file path (visit store stage p q).tree = file path p.tree := by
  by_cases hp : p.cancelled = true
  · rw [visit, if_pos hp]
  · obtain ⟨log, hvisit⟩ := visit_eq store stage q (by simpa using hp)
    rw [hvisit]
    split
    · rfl
    · dsimp only
      split
      · exact hs.read_file q path p.tree
      · exact hs.read_file q path p.tree

theorem visit_other (hs : store.Separable file) {path q : Bytes} (hq : q ≠ path) (stage : Stage) {a b : Progress σ}
    (hun : (visit store stage a q).cancelled = false) (h : Agree file path a b) :
    Agree file path (visit store stage a q) b := by
  have ha := visit_cancelled hun
  obtain ⟨hstate, hbatch⟩ := visit_elsewhere store hq stage ha
  exact ⟨(visit_file hs stage a q path).trans h.file, hstate.trans h.state, hbatch.trans h.batch,
    hun.trans (ha.symm.trans h.cancelled)⟩

theorem visit_self (hs : store.Separable file) {path : Bytes} (stage : Stage) {a b : Progress σ}
    (ha : a.cancelled = false) (h : Agree file path a b) :
    Agree file path (visit store stage a path) (visit store stage b path) := by
  have hget : a.states.get path stage.rule.kind = b.states.get path stage.rule.kind := by
    rw [States.get_eq, States.get_eq, h.state]
  have hgiven : givenUp stage a path = givenUp stage b path := by rw [givenUp, givenUp, hget]
  have hverdict : verdictAt store stage a path = verdictAt store stage b path := by
    rw [verdictAt, verdictAt, hget, hs.read_eq h.file]
  have hsee : (a.states.see path stage.rule.kind).at? path = (b.states.see path stage.rule.kind).at? path := by
    rw [States.at?_see, States.at?_see, hget]
  have htree : file path (store.read path a.tree).2 = file path (store.read path b.tree).2 := by
    rw [hs.read_file, hs.read_file, h.file]
  obtain ⟨_, hvisita⟩ := visit_eq store stage path ha
  obtain ⟨_, hvisitb⟩ := visit_eq store stage path (h.cancelled.symm.trans ha)
  rw [hvisita, hvisitb, hgiven, hverdict]
  split
  · exact ⟨h.file, hsee, h.batch, h.cancelled⟩
  · dsimp only
    cases (verdictAt store stage b path).edits with
    | error e =>
      have hpath (x : FileState) : (FileState.failAt stage e x).path = x.path := rfl
      refine ⟨htree, ?_, h.batch, rfl⟩
      dsimp only
      rw [States.at?_update _ _ _ hpath, States.at?_update _ _ _ hpath, States.get_eq, States.get_eq, hsee]
    | ok changes =>
      refine ⟨htree, hsee, ?_, rfl⟩
      dsimp only
      rw [Batch.only_add_self, h.batch]

/-- The rule loop, seen from one path. -/
theorem foldl_visit_agree (hs : store.Separable file) {path : Bytes} (stage : Stage) (paths : List Bytes)
    {a b : Progress σ} (hun : (paths.foldl (visit store stage) a).cancelled = false) (h : Agree file path a b) :
    Agree file path (paths.foldl (visit store stage) a)
      ((paths.filter (· = path)).foldl (visit store stage) b) := by
  refine foldl_filter_rel (fun a b : Progress σ => a.cancelled = false → Agree file path a b) _ _ ?_ ?_ paths
    (fun _ => h) hun
  · intro a b q hq hab hun
    exact visit_other hs (by simpa using hq) stage hun (hab (visit_cancelled hun))
  · intro a b q hq hab hun
    obtain rfl : q = path := by simpa using hq
    exact visit_self hs stage (visit_cancelled hun) (hab (visit_cancelled hun))

/-- The files that a stage writes, with the number of their edits. -/
def written (store : Store σ) (files : FileSet) (stage : Stage) (p : Progress σ) : List (Bytes × Nat) :=
  let visited := (files.files stage.rule.kind).foldl (visit store stage) { p with batch := .empty }
  (visited.batch.flush store visited.cancelled visited.tree).1.changed

/-- What a stage reports of the files that it wrote. -/
def Stage.report (stage : Stage) (skipped : Bool) (writes : List (Bytes × Nat)) : StageResult :=
  ⟨stage.rule.id, total (writes.map Prod.snd), writes.map Prod.fst, skipped⟩

theorem runStage_cancelled (files : FileSet) (stage : Stage) (p : Progress σ) :
    (runStage store files stage p).2.cancelled =
      ((files.files stage.rule.kind).foldl (visit store stage) { p with batch := .empty }).cancelled := rfl

/-- One stage over all files, seen from one path. -/
theorem runStage_agree (hs : store.Separable file) {path : Bytes} (files : FileSet) (stage : Stage)
    {a b : Progress σ} (hun : (runStage store files stage a).2.cancelled = false) (h : Agree file path a b) :
    Agree file path (runStage store files stage a).2 (runStage store (files.only path) stage b).2 ∧
      (written store files stage a).filter (·.1 = path) = written store (files.only path) stage b := by
  rw [runStage_cancelled] at hun
  have hstart : Agree file path { a with batch := .empty } { b with batch := .empty } :=
    ⟨h.file, h.state, rfl, h.cancelled⟩
  have hvisited := foldl_visit_agree hs stage (files.files stage.rule.kind) hun hstart
  rw [← FileSet.files_only] at hvisited
  unfold runStage Batch.drain written
  generalize (files.files stage.rule.kind).foldl (visit store stage) { a with batch := .empty } = a' at *
  generalize ((files.only path).files stage.rule.kind).foldl (visit store stage) { b with batch := .empty } = b' at *
  have hun' : b'.cancelled = false := hvisited.cancelled.symm.trans hun
  have hpending : a'.batch.pending path = b'.batch.pending path := by
    rw [← hvisited.batch, Batch.pending_only]
  obtain ⟨hflushed, htree⟩ := Batch.flushPaths_restrict hs hpending a'.batch.paths hvisited.file
  rw [← Batch.paths_only, hvisited.batch] at hflushed htree
  simp only [Batch.flush, hun, hun']
  refine ⟨⟨htree, ?_, rfl, rfl⟩, ?_⟩
  · dsimp only
    rw [at?_record stage _ path hvisited.state, hflushed]
  · rw [← hflushed]
    rfl

theorem foldl_visit_cancelled {stage : Stage} {paths : List Bytes} {p : Progress σ}
    (h : (paths.foldl (visit store stage) p).cancelled = false) : p.cancelled = false := by
  induction paths generalizing p with
  | nil => exact h
  | cons q rest ih => exact visit_cancelled (ih h)

/-- A run that is cancelled stays so. -/
theorem runStages_cancelled {disabled : List String} {files : FileSet} {version : Version} {stages : List Stage}
    {p : Progress σ} (h : (runStages store disabled files version stages p).progress.cancelled = false) :
    p.cancelled = false := by
  induction stages generalizing p with
  | nil => exact h
  | cons stage rest ih =>
    rw [runStages] at h
    split at h
    · exact h
    · next hp => simpa using hp

/-- A log says nothing of a file. -/
theorem Agree.log {path : Bytes} {a b : Progress σ} (h : Agree file path a b) (la lb : List Log.Record) :
    Agree file path { a with log := la } { b with log := lb } :=
  ⟨h.file, h.state, h.batch, h.cancelled⟩

/-- The run behind a stage; a disabled one does nothing. -/
def passed (store : Store σ) (disabled : List String) (files : FileSet) (stage : Stage) (p : Progress σ) : Progress σ :=
  if disabled.contains stage.rule.id then p else (runStage store files stage p).2

/-- The files that a stage writes, if it is not disabled. -/
def writtenBy (store : Store σ) (disabled : List String) (files : FileSet) (stage : Stage) (p : Progress σ) :
    List (Bytes × Nat) :=
  if disabled.contains stage.rule.id then [] else written store files stage p

theorem runStages_cons (store : Store σ) (disabled : List String) (files : FileSet) (version : Version) (stage : Stage)
    (rest : List Stage) {p : Progress σ} (hp : p.cancelled = false) :
    ∃ log, let next := runStages store disabled files version rest { passed store disabled files stage p with log }
      (runStages store disabled files version (stage :: rest) p).progress = next.progress ∧
      (runStages store disabled files version (stage :: rest) p).stages =
        stage.report (disabled.contains stage.rule.id) (writtenBy store disabled files stage p) :: next.stages := by
  rw [runStages, if_neg (by rw [hp]; exact Bool.false_ne_true)]
  unfold passed writtenBy
  dsimp only
  cases disabled.contains stage.rule.id with
  | true => exact ⟨_, rfl, rfl⟩
  | false => exact ⟨_, rfl, rfl⟩

/-- One stage of a run, seen from one path. -/
theorem passed_agree (hs : store.Separable file) {path : Bytes} {disabled : List String} {files : FileSet}
    {stage : Stage} {a b : Progress σ} (hun : (passed store disabled files stage a).cancelled = false)
    (h : Agree file path a b) :
    Agree file path (passed store disabled files stage a) (passed store disabled (files.only path) stage b) ∧
      (writtenBy store disabled files stage a).filter (·.1 = path) =
        writtenBy store disabled (files.only path) stage b := by
  unfold passed at hun
  unfold passed writtenBy
  cases hdis : disabled.contains stage.rule.id with
  | true => exact ⟨h, rfl⟩
  | false =>
    rw [hdis] at hun
    exact runStage_agree hs files stage hun h

end TwoRuns

end Migration

end Codemod
