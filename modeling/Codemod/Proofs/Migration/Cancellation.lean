import Codemod.Proofs.Migration.Asked
import Codemod.Proofs.Migration.FileStep

namespace Codemod.Migration

open Edit Workspace

/-- Where the files and their states stand at the end of a run. -/
def Outcome.progress {σ : Type} (o : Outcome σ) : Progress σ := ⟨o.tree, o.result.states, .empty, o.cancelled, o.log⟩

/-- How a file fails whose edits wait when the run is cancelled. -/
def cancelledWrite : Fault := .filed .writeFailure (.category .cancelled)

/-- How a run ends that is cancelled before its last stage. -/
def cancelledRun (version : Version) : Fault :=
  .within (.concat ["migration ", version.toText, " cancelled"]) (.category .cancelled)

theorem at?_foldl_failAt (stage : Stage) (e : Fault) (paths : List Bytes) (s : States) (q : Bytes) :
    (paths.foldl (fun s path => s.update path stage.rule.kind (FileState.failAt stage e)) s).at? q =
      if q ∈ paths then some ((s.get q stage.rule.kind).failAt stage e) else s.at? q := by
  have hpath (x : FileState) : (FileState.failAt stage e x).path = x.path := rfl
  induction paths generalizing s with
  | nil => rfl
  | cons path rest ih =>
    rw [List.foldl_cons, ih]
    by_cases hq : path = q
    · subst hq
      have hself := States.at?_update s path stage.rule.kind hpath
      have hget : (s.update path stage.rule.kind (FileState.failAt stage e)).get path stage.rule.kind =
          (s.get path stage.rule.kind).failAt stage e := by
        rw [States.get_eq, hself, Option.getD_some]
      rw [hself, hget, if_pos (List.mem_cons_self ..)]
      split <;> rfl
    · have hother := States.at?_update_other hq s stage.rule.kind hpath
      rw [States.get_congr hother, hother]
      simp only [List.mem_cons, Ne.symm hq, false_or]

/-- A cancelled flush fails each of its files. -/
theorem record_cancelled (stage : Stage) (paths : List Bytes) (s : States) (q : Bytes) :
    (record stage ⟨[], paths.map fun path => (path, .category .cancelled)⟩ s).at? q =
      if q ∈ paths then some ((s.get q stage.rule.kind).failAt stage cancelledWrite) else s.at? q := by
  have hfault : flushFault (.category .cancelled) = cancelledWrite := by
    simp [flushFault, Fault.isConflict, Fault.isMisfit, Fault.leaves, cancelledWrite]
  rw [record_eq, List.foldl_nil, List.foldl_map, ← hfault]
  exact at?_foldl_failAt stage (flushFault (.category .cancelled)) paths s q

section Stopped

variable {σ : Type} {store : Store σ} {files : FileSet} {stage : Stage} {p : Progress σ}

/-- A stage that is cancelled on its way writes nothing, and fails the files that have edits by then. -/
theorem runStage_stopped (hread : ∀ q t, (store.read q t).2 = t)
    (hstop : (runStage store files stage p).2.cancelled = true) :
    let start : Progress σ := { p with batch := .empty }
    let reached := comesTo store stage (files.files stage.rule.kind) start
    let queued := reached.foldl (visit store stage) start
    let after := runStage store files stage p
    after.1 = ⟨stage.rule.id, 0, [], false⟩ ∧ after.2.tree = p.tree ∧
      ∀ q, after.2.states.at? q = if queued.batch.pending q = [] then queued.states.at? q
        else some ((p.states.get q stage.rule.kind).failAt stage cancelledWrite) := by
  intro start reached queued after
  have hcomes : comesTo store stage reached start = reached := comesTo_comesTo ..
  obtain ⟨htree, hlisted, hothers⟩ := foldl_visit_asked hread hcomes
  have hsound : queued.batch.Sound := foldl_visit_sound (Batch.sound_collect []) reached
  have hqueued : (files.files stage.rule.kind).foldl (visit store stage) start = queued := (foldl_comesTo ..).symm
  have hflush : queued.batch.flush store queued.cancelled queued.tree =
      (⟨[], queued.batch.paths.map fun path => (path, .category .cancelled)⟩, queued.tree) := by
    have hcancelled : queued.cancelled = true := by
      rw [← hqueued]
      exact hstop
    rw [hcancelled]
    exact Batch.flushPaths_cancelled store _ _ _
  -- the state of a file with edits differs from the one it had in its failure alone
  have hstate (q : Bytes) (hq : queued.batch.pending q ≠ []) :
      (queued.states.get q stage.rule.kind).failAt stage cancelledWrite =
        (p.states.get q stage.rule.kind).failAt stage cancelledWrite := by
    have hmem : q ∈ reached := by
      by_contra hmem
      exact hq (hothers q hmem).2
    rw [States.get_eq, (hlisted q hmem).1, Option.getD_some, asked]
    split
    · rfl
    · split <;> rfl
  unfold after runStage Batch.drain
  dsimp only
  rw [hqueued, hflush]
  refine ⟨rfl, htree, fun q => ?_⟩
  dsimp only
  rw [record_cancelled]
  simp only [hsound.mem_paths]
  by_cases hq : queued.batch.pending q = []
  · rw [if_neg (not_not.mpr hq), if_pos hq]
  · rw [if_pos hq, if_neg hq, hstate q hq]

/-- A run goes on where its first stages left it. -/
theorem runStages_continue (store : Store σ) (disabled : List String) (files : FileSet) (version : Version)
    (first rest : List Stage) {p : Progress σ}
    (hun : (runStages store disabled files version first p).progress.cancelled = false) :
    let early := runStages store disabled files version first p
    let late := runStages store disabled files version rest early.progress
    runStages store disabled files version (first ++ rest) p =
      ⟨late.progress, early.stages ++ late.stages, late.fault⟩ := by
  induction first generalizing p with
  | nil => rfl
  | cons stage first ih =>
    have hp : ¬p.cancelled = true := by simp [runStages_cancelled hun]
    rw [runStages, if_neg hp] at hun
    rw [List.cons_append, runStages, runStages, if_neg hp, if_neg hp]
    dsimp only at hun ⊢
    split at hun
    · next hdis =>
      rw [if_pos hdis, if_pos hdis, ih hun]
      rfl
    · next hdis =>
      rw [if_neg hdis, if_neg hdis, ih hun]
      rfl

/-- A run ends with a stage that is cancelled, and says so if there are others. -/
theorem runStages_stopped {disabled : List String} (version : Version) (after : List Stage)
    (hp : p.cancelled = false) (hstop : (passed store disabled files stage p).cancelled = true) :
    passed store disabled files stage p = (runStage store files stage p).2 ∧
      ∃ log, runStages store disabled files version (stage :: after) p =
        ⟨{ (runStage store files stage p).2 with log }, [(runStage store files stage p).1],
          if after.isEmpty then none else some (cancelledRun version)⟩ := by
  unfold passed at hstop ⊢
  split at hstop
  · exact absurd (hp.symm.trans hstop) Bool.false_ne_true
  · next hdis =>
    have hp : ¬p.cancelled = true := by simp [hp]
    rw [if_neg hdis, runStages, if_neg hp]
    dsimp only
    rw [if_neg hdis]
    cases after with
    | nil => exact ⟨rfl, _, rfl⟩
    | cons next after =>
      rw [runStages, if_pos hstop]
      exact ⟨rfl, _, rfl⟩

end Stopped

/-- A run that a rule cancels ends as if the stage of that rule had written nothing: the files are as
the stages before left them, no stage comes after it, and of the files only those with edits in that
stage have failed in it. -/
theorem run_stopped (unreadable unwritable : Bytes → Option Fault) (disabled : List String) (files : FileSet)
    (m : Migration) (tree : Memory) {before after : List Stage} {stage : Stage}
    (hstages : m.stages = before ++ stage :: after)
    (hbefore : (run (Memory.store.refusing unreadable unwritable) disabled files { m with stages := before } false
      tree).cancelled = false)
    (hstage : (run (Memory.store.refusing unreadable unwritable) disabled files
      { m with stages := before ++ [stage] } false tree).cancelled = true) :
    let store := Memory.store.refusing unreadable unwritable
    let whole := run store disabled files m false tree
    let early := run store disabled files { m with stages := before } false tree
    ∃ first path rest, files.files stage.rule.kind = first ++ path :: rest ∧
      let queued := (first ++ [path]).foldl (visit store stage) early.progress
      givenUp stage early.progress path = false ∧ (verdictAt store stage early.progress path).cancels = true ∧
      (first.foldl (visit store stage) early.progress).cancelled = false ∧
      whole.tree = early.tree ∧
      whole.result.stages = early.result.stages ++ [⟨stage.rule.id, 0, [], false⟩] ∧
      (∀ q, queued.batch.pending q ≠ [] → q ∈ first ++ [path] ∧ whole.result.file? q =
        some ((early.progress.states.get q stage.rule.kind).failAt stage cancelledWrite)) ∧
      (∀ q ∈ first ++ [path], queued.batch.pending q = [] → whole.result.file? q = queued.states.at? q) ∧
      (∀ q, q ∉ first ++ [path] → whole.result.file? q = early.result.file? q) ∧
      whole.fault = if after.isEmpty then none else some (cancelledRun m.version) := by
  intro store whole early
  have hread (q : Bytes) (t : Memory) : (store.read q t).2 = t := (read_refusing unreadable unwritable q t).1
  let p := (runStages store disabled files m.version before ⟨tree, [], .empty, false, []⟩).progress
  have hp : p.cancelled = false := hbefore
  have hstop : (passed store disabled files stage p).cancelled = true := by
    have hlast : (runStages store disabled files m.version (before ++ [stage])
        ⟨tree, [], .empty, false, []⟩).progress.cancelled = true := hstage
    obtain ⟨log, hprogress, -⟩ := runStages_cons store disabled files m.version stage [] hp
    rw [runStages_append, hprogress] at hlast
    exact hlast
  obtain ⟨hpassed, log, hlate⟩ := runStages_stopped m.version after hp hstop
  rw [hpassed] at hstop
  have hrun := runStages_continue store disabled files m.version before (stage :: after) hbefore
  dsimp only at hrun
  rw [← hstages, hlate] at hrun
  obtain ⟨hreport, htree, hstates⟩ := runStage_stopped hread hstop
  -- the file at which it is cancelled, as it is when the stage begins
  obtain ⟨first, path, rest, hsplit, hcomes, hfirst, hgiven, hcancels⟩ :=
    exists_cancelling store stage (p := early.progress) hp hstop
  have hfirstAll := comesTo_of_uncancelled hfirst
  obtain ⟨hkept, -, -⟩ := foldl_visit_asked hread hfirstAll
  obtain ⟨hgivenUp, hverdict, -⟩ := asked_congr store hkept (get_of_live hread hfirstAll hgiven)
  have hall : comesTo store stage (first ++ [path]) early.progress = first ++ [path] := by
    rw [← hcomes, comesTo_comesTo]
  obtain ⟨-, -, hothers⟩ := foldl_visit_asked hread hall
  have hreached : comesTo store stage (files.files stage.rule.kind) { p with batch := .empty } = first ++ [path] := hcomes
  rw [hreached] at hstates
  let queued := (first ++ [path]).foldl (visit store stage) early.progress
  have hfile (q : Bytes) : whole.result.file? q = if queued.batch.pending q = [] then queued.states.at? q
      else some ((early.progress.states.get q stage.rule.kind).failAt stage cancelledWrite) :=
    (congrArg (fun r : Run Memory => r.progress.states.at? q) hrun).trans (hstates q)
  refine ⟨first, path, rest, hsplit, hgivenUp.symm.trans hgiven, hverdict ▸ hcancels, hfirst, ?_, ?_, ?_, ?_, ?_, ?_⟩
  · exact (congrArg (fun r : Run Memory => r.progress.tree) hrun).trans htree
  · have hresults := congrArg (fun r : Run Memory => r.stages) hrun
    dsimp only at hresults
    rw [hreport] at hresults
    exact hresults
  · intro q hq
    refine ⟨?_, ?_⟩
    · by_contra hmem
      exact hq (hothers q hmem).2
    · rw [hfile, if_neg hq]
  · intro q _ hq
    rw [hfile, if_pos hq]
  · intro q hq
    obtain ⟨hstate, hpending⟩ := hothers q hq
    exact (hfile q).trans ((if_pos hpending).trans hstate)
  · exact congrArg (fun r : Run Memory => r.fault) hrun

/-- The second of three stages is cancelled at the second of its three files. -/
theorem run_stopped_second :
    let store := Memory.store.refusing (fun _ => none) fun _ => none
    let mark (id : String) (stops : Bytes → Bool) : Stage :=
      ⟨⟨id, "", "", .style, fun c => ⟨.ok [.insert 0 "x"], stops c.path⟩⟩, ""⟩
    let one := mark "one" fun _ => false
    let two := mark "two" (· = "b")
    let m : Migration := ⟨⟨1, 0, 0, []⟩, "", [one, two, one]⟩
    let files : FileSet := ⟨[], ["a", "b", "c"], []⟩
    let tree := Memory.ofFiles [("a", ""), ("b", ""), ("c", "")]
    let whole := run store [] files m false tree
    let early := run store [] files { m with stages := [one] } false tree
    early.cancelled = false ∧ whole.tree = early.tree ∧ whole.tree.file? "b" = some ⟨"b", "x", 1⟩ ∧
      whole.result.failed.map (·.path) = ["a", "b"] ∧ whole.fault = some (cancelledRun m.version) := by
  intro store mark one two m files tree whole early
  obtain ⟨hearly, hstopped, hfile, hfailed⟩ : early.cancelled = false ∧
      (run store [] files { m with stages := [one] ++ [two] } false tree).cancelled = true ∧
      whole.tree.file? "b" = some ⟨"b", "x", 1⟩ ∧ whole.result.failed.map (·.path) = ["a", "b"] := by cbv
  have hstages : m.stages = [one] ++ two :: [one] := rfl
  obtain ⟨first, path, rest, hsplit, -, -, -, htree, -, -, -, -, hfault⟩ := run_stopped (fun _ => none) (fun _ => none) []
    files m tree hstages hearly hstopped
  exact ⟨hearly, htree, hfile, hfailed, hfault⟩

section Applied

variable {σ : Type} (store : Store σ)

/-- What the rule of a stage answers at each visit to a file that was not given up. -/
def answers (stage : Stage) (path : Bytes) : List Bytes → Progress σ → List (Except Fault (List Change))
  | [], _ => []
  | q :: rest, p =>
    let later := answers stage path rest (visit store stage p q)
    if q = path ∧ p.cancelled = false ∧ givenUp stage p q = false then (verdictAt store stage p q).edits :: later
    else later

/-- The changes fit the content that the store gives for a file, and it takes the changed one. -/
def Placed (path : Bytes) (changes : List Change) (t : σ) : Prop :=
  ∃ content next, (store.read path t).1 = .ok content ∧ applyChanges content changes = .ok next ∧
    (next = content ∨ (store.overwrite path next (store.read path t).2).1 = .ok ())

/-- A stage was applied to a file: its rule gave edits each time that the file is listed, and all of
them found their place. -/
def Applied (files : FileSet) (stage : Stage) (p : Progress σ) (path : Bytes) : Prop :=
  ∃ edits : List (List Change),
    answers store stage path (files.files stage.rule.kind) { p with batch := .empty } = edits.map .ok ∧
    edits.length = (files.files stage.rule.kind).count path ∧
    (edits.flatten ≠ [] → Placed store path edits.flatten (flushTree store files stage p path))

end Applied

section Stage

variable {σ : Type} {store : Store σ} {files : FileSet} {stage : Stage} {p : Progress σ} {path : Bytes}

/-- The file was not given up. -/
def States.Live (s : States) (path : Bytes) : Prop := ∀ st, s.at? path = some st → st.failure = none

theorem States.Live.of_persists {s s' : States} (hkeeps : ∀ st, s.at? path = some st → st.failure.isSome →
    ∃ st', s'.at? path = some st' ∧ st'.failure.isSome) (h : s'.Live path) : s.Live path := by
  intro st hst
  by_contra hne
  obtain ⟨st', hst', hfailure⟩ := hkeeps st hst (Option.isSome_iff_ne_none.mpr hne)
  rw [h st' hst'] at hfailure
  cases hfailure

theorem givenUp_of_live (h : p.states.Live path) : givenUp stage p path = false := by
  rw [givenUp, States.get_eq]
  cases hst : p.states.at? path with
  | none => rfl
  | some st => rw [Option.getD_some, h st hst, Option.isSome_none]

theorem live_of_visit {q : Bytes} (h : (visit store stage p q).states.Live path) : p.states.Live path :=
  h.of_persists fun st hst hfailure => ⟨st, (visit_of_failure store stage hst hfailure q).1, hfailure⟩

theorem live_of_foldl (paths : List Bytes) (h : (paths.foldl (visit store stage) p).states.Live path) :
    p.states.Live path :=
  h.of_persists fun st hst hfailure => ⟨st, (foldl_visit_of_failure store stage hst hfailure paths).1, hfailure⟩

theorem live_of_runStages {disabled : List String} {version : Version} {stages : List Stage}
    (h : (runStages store disabled files version stages p).progress.states.Live path) : p.states.Live path :=
  h.of_persists fun st hst hfailure => ⟨st, runStages_of_failure store disabled files version stages hst hfailure, hfailure⟩

theorem failure_of_foldl_update {α : Type} (kind : Kind) {f : α → FileState → FileState}
    (hpath : ∀ a x, (f a x).path = x.path) (hkeeps : ∀ a x, x.failure.isSome → (f a x).failure.isSome)
    (l : List (Bytes × α)) {s : States} {st : FileState} (hst : s.at? path = some st) (hfailure : st.failure.isSome) :
    ∃ st', (l.foldl (fun s x => s.update x.1 kind (f x.2)) s).at? path = some st' ∧ st'.failure.isSome := by
  induction l generalizing s st with
  | nil => exact ⟨st, hst, hfailure⟩
  | cons x l ih =>
    rw [List.foldl_cons]
    by_cases hx : x.1 = path
    · subst hx
      have hnext := States.at?_update s x.1 kind (hpath x.2)
      rw [States.get_eq, hst, Option.getD_some] at hnext
      exact ih hnext (hkeeps x.2 st hfailure)
    · exact ih ((States.at?_update_other hx s kind (hpath x.2)).trans hst) hfailure

theorem live_of_record {flushed : Batch.Flushed} {s : States} (h : (record stage flushed s).Live path) :
    s.Live path := by
  refine h.of_persists fun st hst hfailure => ?_
  rw [record_eq]
  obtain ⟨st', hst', hfailure'⟩ := failure_of_foldl_update stage.rule.kind
    (f := fun e => FileState.failAt stage (flushFault e)) (fun _ _ => rfl) (fun _ _ _ => rfl) flushed.errors hst hfailure
  exact failure_of_foldl_update stage.rule.kind (f := FileState.advance stage) (fun _ _ => rfl) (fun _ _ h => h)
    flushed.changed hst' hfailure'

/-- The rule has given edits for a file at each visit that left it alive, and these wait. -/
theorem answers_of_live {paths : List Bytes} (hlive : (paths.foldl (visit store stage) p).states.Live path) :
    ∃ edits : List (List Change), answers store stage path paths p = edits.map .ok ∧
      edits.length = (comesTo store stage paths p).count path ∧
      (paths.foldl (visit store stage) p).batch.pending path = p.batch.pending path ++ edits.flatten := by
  induction paths generalizing p with
  | nil => exact ⟨[], rfl, rfl, (List.append_nil _).symm⟩
  | cons q rest ih =>
    obtain ⟨edits, hanswers, hlength, hpending⟩ := ih hlive
    rw [answers, comesTo, List.foldl_cons, hanswers, hpending]
    cases hp : p.cancelled with
    | true =>
      have hnone : comesTo store stage rest (visit store stage p q) = [] := by
        rw [visit_of_cancelled hp]
        cases rest with
        | nil => rfl
        | cons => rw [comesTo, if_pos hp]
      rw [hnone] at hlength
      rw [visit_of_cancelled hp]
      exact ⟨edits, by simp, hlength, rfl⟩
    | false =>
      rw [if_neg Bool.false_ne_true]
      by_cases hq : q = path
      · subst hq
        have hafter : (visit store stage p q).states.Live q := live_of_foldl rest hlive
        have hgiven : givenUp stage p q = false := givenUp_of_live (live_of_visit hafter)
        obtain ⟨log, hvisit⟩ := visit_eq store stage q hp
        rw [hgiven, if_neg Bool.false_ne_true] at hvisit
        dsimp only at hvisit
        rw [if_pos ⟨rfl, rfl, hgiven⟩, List.count_cons_self, ← hlength]
        cases hedits : (verdictAt store stage p q).edits with
        | error e =>
          rw [hedits] at hvisit
          have hfail := States.at?_update (p.states.see q stage.rule.kind) q stage.rule.kind
            (f := FileState.failAt stage e) fun _ => rfl
          rw [hvisit] at hafter
          cases hafter _ hfail
        | ok changes =>
          rw [hedits] at hvisit
          refine ⟨changes :: edits, rfl, rfl, ?_⟩
          rw [hvisit]
          dsimp only
          rw [Batch.pending_add_self, List.append_assoc, List.flatten_cons]
      · obtain ⟨-, hbatch⟩ := visit_elsewhere store hq stage hp
        rw [if_neg (fun h => hq h.1), List.count_cons_of_ne hq, ← Batch.pending_only, hbatch, Batch.pending_only]
        exact ⟨edits, rfl, hlength, rfl⟩

theorem placed_of_flushPath {changes : List Change} {t : σ} {done : Bool}
    (h : (Batch.flushPath store path changes t).1 = .ok done) : Placed store path changes t := by
  unfold Batch.flushPath at h
  unfold Placed
  generalize store.read path t = reading at h ⊢
  obtain ⟨content, u⟩ := reading
  cases content with
  | error e => cases h
  | ok content =>
    dsimp only at h
    cases happly : applyChanges content changes with
    | error e =>
      rw [happly] at h
      cases e <;> cases h
    | ok next =>
      rw [happly] at h
      dsimp only at h
      refine ⟨content, next, rfl, happly, ?_⟩
      split at h
      · next heq => exact Or.inl heq.symm
      · generalize store.overwrite path next u = writing at h ⊢
        obtain ⟨answer, w⟩ := writing
        cases answer with
        | error e => cases h
        | ok _ => exact Or.inr rfl

theorem flush_only_of_sound (store : Store σ) {b : Batch} (hb : b.Sound) (hpending : b.pending path ≠ []) (t : σ) :
    (b.flush store false t).1.only path =
      let before := (b.flushPaths store false (b.paths.takeWhile (· ≠ path)) t).2
      Batch.Flushed.note path (b.pending path).length (Batch.flushPath store path (b.pending path) before).1 ⟨[], []⟩ := by
  have hnodup : b.paths.Nodup := (Bytes.sort_ascending hb.nodup).imp And.right
  exact Batch.flushPaths_reaches store (List.count_eq_one_of_mem hnodup ((hb.mem_paths path).mpr hpending)) b t

/-- A flush that leaves a file alive has found a place for its changes. -/
theorem placed_of_live (hlive : (runStage store files stage p).2.states.Live path)
    (hpending : (visited store files stage p).batch.pending path ≠ []) :
    Placed store path ((visited store files stage p).batch.pending path) (flushTree store files stage p path) := by
  have hsound : (visited store files stage p).batch.Sound := foldl_visit_sound (Batch.sound_collect []) _
  have hafter : (runStage store files stage p).2.states.at? path =
      (record stage ((visited store files stage p).batch.flush store (visited store files stage p).cancelled
        (visited store files stage p).tree).1 (visited store files stage p).states).at? path := rfl
  cases hcancelled : (visited store files stage p).cancelled with
  | true =>
    have hflush := Batch.flushPaths_cancelled store (visited store files stage p).batch
      (visited store files stage p).batch.paths (visited store files stage p).tree
    rw [hcancelled, Batch.flush, hflush, record_cancelled, if_pos ((hsound.mem_paths path).mpr hpending)] at hafter
    cases hlive _ hafter
  | false =>
    have honly := flush_only_of_sound store hsound hpending (visited store files stage p).tree
    rw [hcancelled, at?_record stage _ path rfl, honly] at hafter
    dsimp only at hafter
    cases houtcome : (Batch.flushPath store path ((visited store files stage p).batch.pending path)
        (flushTree store files stage p path)).1 with
    | ok done => exact placed_of_flushPath houtcome
    | error e =>
      have hfail := States.at?_update (visited store files stage p).states path stage.rule.kind
        (f := FileState.failAt stage (flushFault e)) fun _ => rfl
      unfold flushTree at houtcome
      rw [houtcome] at hafter
      cases hlive _ (hafter.trans hfail)

/-- A stage is applied to every file that it comes to and that is alive behind it. -/
theorem applied_of_live (hlive : (runStage store files stage p).2.states.Live path)
    (hcomes : (comesTo store stage (files.files stage.rule.kind) { p with batch := .empty }).count path =
      (files.files stage.rule.kind).count path) : Applied store files stage p path := by
  have hvisited : (visited store files stage p).states.Live path := live_of_record hlive
  obtain ⟨edits, hanswers, hlength, hpending⟩ := answers_of_live hvisited
  have hwaits : (visited store files stage p).batch.pending path = edits.flatten := hpending
  refine ⟨edits, hanswers, hlength.trans hcomes, fun hne => ?_⟩
  rw [← hwaits] at hne ⊢
  exact placed_of_live hlive hne

end Stage

section Run

variable {σ : Type} {store : Store σ} {disabled : List String} {files : FileSet}

/-- A run that says nothing of a cancellation was alive before each of its stages. -/
theorem uncancelled_of_fault {version : Version} {before after : List Stage} {stage : Stage} {p : Progress σ}
    (h : (runStages store disabled files version (before ++ stage :: after) p).fault = none) :
    (runStages store disabled files version before p).progress.cancelled = false := by
  induction before generalizing p with
  | nil =>
    rw [List.nil_append, runStages] at h
    split at h
    · cases h
    · next hp =>
      have hp : p.cancelled = false := by simpa using hp
      exact hp
  | cons first before ih =>
    rw [List.cons_append, runStages] at h
    split at h
    · cases h
    · next hp =>
      rw [runStages, if_neg hp]
      dsimp only at h ⊢
      split at h
      · next hdis =>
        rw [if_pos hdis]
        exact ih h
      · next hdis =>
        rw [if_neg hdis]
        exact ih h

/-- A run that reports no fault, seen from one of its enabled stages. -/
theorem runStages_at {version : Version} {before after : List Stage} {stage : Stage} {start : Progress σ}
    (hfault : (runStages store disabled files version (before ++ stage :: after) start).fault = none)
    (henabled : stage.rule.id ∉ disabled) :
    let p := (runStages store disabled files version before start).progress
    p.cancelled = false ∧ ∃ log, let behind : Progress σ := { (runStage store files stage p).2 with log }
      (runStages store disabled files version (before ++ stage :: after) start).progress =
        (runStages store disabled files version after behind).progress ∧
      (runStages store disabled files version after behind).fault = none := by
  have hun := uncancelled_of_fault hfault
  have hp : ¬(runStages store disabled files version before start).progress.cancelled = true := by simp [hun]
  have hdis : ¬disabled.contains stage.rule.id = true := by simpa using henabled
  refine ⟨hun, ?_⟩
  rw [runStages_continue store disabled files version before (stage :: after) hun] at hfault ⊢
  rw [runStages, if_neg hp] at hfault ⊢
  dsimp only at hfault ⊢
  rw [if_neg hdis] at hfault ⊢
  exact ⟨_, rfl, hfault⟩

/-- A run that reports no fault has applied every enabled stage to every file of its kind without a
failure. Only where the last stage was cancelled, the stage must have come to the file. -/
theorem run_covers (store : Store σ) (disabled : List String) (files : FileSet) (m : Migration) (cancelled : Bool)
    (tree : σ) {before after : List Stage} {stage : Stage} {path : Bytes}
    (hfault : (run store disabled files m cancelled tree).fault = none)
    (hstages : m.stages = before ++ stage :: after) (henabled : stage.rule.id ∉ disabled)
    (hlive : ∀ st, (run store disabled files m cancelled tree).result.file? path = some st → st.failure = none)
    (hcomes : (run store disabled files m cancelled tree).cancelled = true → after = [] →
      let here := (run store disabled files { m with stages := before } cancelled tree).progress
      (comesTo store stage (files.files stage.rule.kind) here).count path = (files.files stage.rule.kind).count path) :
    Applied store files stage (run store disabled files { m with stages := before } cancelled tree).progress path := by
  have hrun : (runStages store disabled files m.version (before ++ stage :: after)
      ⟨tree, [], .empty, cancelled, []⟩).fault = none := hstages ▸ hfault
  obtain ⟨hun, log, hlast, hnone⟩ := runStages_at hrun henabled
  rw [← hstages] at hlast
  let p := (runStages store disabled files m.version before ⟨tree, [], .empty, cancelled, []⟩).progress
  have hafter : (runStage store files stage p).2.states.Live path := by
    have hend : (runStages store disabled files m.version after
        { (runStage store files stage p).2 with log }).progress.states.Live path := by
      rw [← hlast]
      exact hlive
    exact (live_of_runStages hend :)
  refine applied_of_live (p := p) hafter ?_
  cases hstop : (runStage store files stage p).2.cancelled with
  | false => exact congrArg (List.count path) (comesTo_of_uncancelled hstop)
  | true =>
    cases after with
    | nil =>
      have hwhole := congrArg Progress.cancelled hlast
      exact hcomes (hwhole.trans hstop) rfl
    | cons next after =>
      -- the check before the next stage would have reported it
      rw [runStages, if_pos hstop] at hnone
      cases hnone

/-- A stage that renames what it finds, and is cancelled in the first of its files. -/
theorem run_covers_first :
    let rename : Stage :=
      ⟨⟨"rename", "", "", .style, fun c => ⟨.ok (if c.content = "old" then [.replace 0 "old" "new"] else []), c.path = "a"⟩⟩, ""⟩
    let files : FileSet := ⟨[], ["a", "b"], []⟩
    let m : Migration := ⟨⟨1, 0, 0, []⟩, "", [rename]⟩
    let tree := Memory.ofFiles [("a", "new"), ("b", "old")]
    let whole := run Memory.store [] files m false tree
    whole.fault = none ∧ whole.cancelled = true ∧
      Applied Memory.store files rename (run Memory.store [] files { m with stages := [] } false tree).progress "a" := by
  intro rename files m tree whole
  let start := (run Memory.store [] files { m with stages := [] } false tree).progress
  obtain ⟨hfault, hcancelled, hlast, hcomes⟩ : whole.fault = none ∧ whole.cancelled = true ∧
      (whole.result.file? "a").map FileState.failure = some none ∧
      (comesTo Memory.store rename (files.files .style) start).count (bytes "a") =
        (files.files .style).count (bytes "a") := by cbv
  have hstages : m.stages = [] ++ rename :: [] := rfl
  refine ⟨hfault, hcancelled, run_covers Memory.store [] files m false tree hfault hstages (by simp) ?_ fun _ _ => hcomes⟩
  intro st hst
  rw [hst] at hlast
  exact Option.some.inj hlast

/-- The other file is not reached. It has no failure, and the run does not say that it was cancelled. -/
theorem run_misses_second :
    let rename : Stage :=
      ⟨⟨"rename", "", "", .style, fun c => ⟨.ok (if c.content = "old" then [.replace 0 "old" "new"] else []), c.path = "a"⟩⟩, ""⟩
    let files : FileSet := ⟨[], ["a", "b"], []⟩
    let m : Migration := ⟨⟨1, 0, 0, []⟩, "", [rename]⟩
    let tree := Memory.ofFiles [("a", "new"), ("b", "old")]
    let whole := run Memory.store [] files m false tree
    whole.fault = none ∧ whole.result.failed = [] ∧ bytes "b" ∈ files.files .style ∧
      whole.tree.file? "b" = some ⟨"b", "old", 0⟩ ∧
      ¬Applied Memory.store files rename (run Memory.store [] files { m with stages := [] } false tree).progress "b" := by
  intro rename files m tree whole
  obtain ⟨hfault, hfailed, hcount, hnone, hfile⟩ : whole.fault = none ∧ whole.result.failed = [] ∧
      (files.files .style).count (bytes "b") = 1 ∧
      answers Memory.store rename "b" (files.files .style)
        (run Memory.store [] files { m with stages := [] } false tree).progress = [] ∧
      whole.tree.file? "b" = some ⟨"b", "old", 0⟩ := by cbv
  refine ⟨hfault, hfailed, List.count_pos_iff.mp (by omega), hfile, ?_⟩
  rintro ⟨edits, hanswers, hlength, -⟩
  rw [hcount] at hlength
  have hedits : edits.map Except.ok = ([] : List (Except Fault (List Change))) := hanswers.symm.trans hnone
  rw [List.map_eq_nil_iff.mp hedits] at hlength
  cases hlength

end Run

end Codemod.Migration
