import Codemod.Proofs.Edit.InPlace
import Codemod.Proofs.Migration.Independence

namespace Codemod

open Edit Workspace

/-- The store with another party at work, which may do anything to the files before each call. -/
def Workspace.Store.shared {σ : Type} (store : Store σ) (other : Nat → σ → σ) : Store (Nat × σ) where
  read path t :=
    let (content, u) := store.read path (other t.1 t.2)
    (content, t.1 + 1, u)
  overwrite path content t :=
    let (done, u) := store.overwrite path content (other t.1 t.2)
    (done, t.1 + 1, u)

namespace Migration

section Stage

variable {σ : Type} (store : Store σ) (files : FileSet) (stage : Stage) (p : Progress σ) (path : Bytes)

/-- A stage when it comes to a file. -/
def reached : Progress σ :=
  ((files.files stage.rule.kind).takeWhile (· ≠ path)).foldl (visit store stage) { p with batch := .empty }

/-- A stage that has asked its rule about every file. -/
def visited : Progress σ := (files.files stage.rule.kind).foldl (visit store stage) { p with batch := .empty }

/-- What is in the store when the flush of a stage comes to a file. -/
def flushTree : σ :=
  let all := visited store files stage p
  (all.batch.flushPaths store false (all.batch.paths.takeWhile (· ≠ path)) all.tree).2

/-- What the rule of a stage gets to see of a file. -/
def ruleReading : Except Fault Bytes := (store.read path (reached store files stage p path).tree).1

/-- What the flush of a stage finds in a file. -/
def flushReading : Except Fault Bytes := (store.read path (flushTree store files stage p path)).1

end Stage

section OneFile

variable {σ : Type} {store : Store σ} {files : FileSet} {stage : Stage} {p : Progress σ} {path : Bytes}

theorem foldl_visit_elsewhere {paths : List Bytes} (hpath : path ∉ paths)
    (hun : (paths.foldl (visit store stage) p).cancelled = false) :
    (paths.foldl (visit store stage) p).states.at? path = p.states.at? path ∧
      (paths.foldl (visit store stage) p).batch.only path = p.batch.only path := by
  induction paths generalizing p with
  | nil => exact ⟨rfl, rfl⟩
  | cons q rest ih =>
    obtain ⟨hq, hrest⟩ := not_or.mp (mt List.mem_cons.mpr hpath)
    obtain ⟨hstates, hbatch⟩ := ih hrest hun
    have hp := visit_cancelled (foldl_visit_cancelled hun)
    obtain ⟨hstate, hqueued⟩ := visit_elsewhere store (Ne.symm hq) stage hp
    exact ⟨hstates.trans hstate, hbatch.trans hqueued⟩

/-- Behind its visit a file that was not given up waits with the edits that its rule asked for. -/
theorem visited_of_edits {changes : List Change} (honce : (files.files stage.rule.kind).count path = 1)
    (hun : (visited store files stage p).cancelled = false) (hlive : givenUp stage p path = false)
    (hedits : (verdictOn stage path (p.states.get path stage.rule.kind)
      (ruleReading store files stage p path)).edits = .ok changes) :
    (visited store files stage p).states.at? path = some (p.states.get path stage.rule.kind) ∧
      (visited store files stage p).batch.only path = Batch.empty.add path changes := by
  have hmem : path ∈ files.files stage.rule.kind := List.count_pos_iff.mp (by omega)
  obtain ⟨first, rest, hsplit, hfirst⟩ := List.eq_append_cons_of_mem hmem
  have hrest : path ∉ rest := by
    rw [hsplit, List.count_append, List.count_cons_self, List.count_eq_zero_of_not_mem hfirst] at honce
    exact List.count_eq_zero.mp (by omega)
  have hreached : reached store files stage p path = first.foldl (visit store stage) { p with batch := .empty } := by
    have hkeep : ∀ q ∈ first, decide (q ≠ path) = true := by
      intro q hq
      have hne : q ≠ path := fun he => hfirst (he ▸ hq)
      simpa using hne
    rw [reached, hsplit, List.takeWhile_append_of_pos hkeep, List.takeWhile_cons_of_neg (by simp), List.append_nil]
  have hvisited : visited store files stage p =
      rest.foldl (visit store stage) (visit store stage (reached store files stage p path) path) := by
    rw [visited, hreached, hsplit, List.foldl_append, List.foldl_cons]
  rw [hvisited] at hun ⊢
  have hself := foldl_visit_cancelled hun
  have hbefore := visit_cancelled hself
  obtain ⟨hstates, hbatch⟩ := foldl_visit_elsewhere hrest hun
  rw [hstates, hbatch]
  -- what stood before the visit
  have hstart : (reached store files stage p path).states.at? path = p.states.at? path ∧
      (reached store files stage p path).batch.only path = .empty := by
    rw [hreached] at hbefore ⊢
    exact foldl_visit_elsewhere hfirst hbefore
  have hget : (reached store files stage p path).states.get path stage.rule.kind =
      p.states.get path stage.rule.kind := by
    rw [States.get_eq, States.get_eq, hstart.1]
  have hgiven : givenUp stage (reached store files stage p path) path = false := by
    rw [givenUp, hget]
    exact hlive
  have hverdict : (verdictAt store stage (reached store files stage p path) path).edits = .ok changes := by
    rw [verdictAt, hget]
    exact hedits
  obtain ⟨log, hvisit⟩ := visit_eq store stage path hbefore
  rw [hvisit]
  simp only [hgiven, Bool.false_eq_true, if_false, hverdict]
  rw [States.at?_see, hget, Batch.only_add_self, hstart.2]
  exact ⟨rfl, rfl⟩

/-- The flush of a stage deals with the edits of a file in what it then finds in the store. -/
theorem flushed_of_edits {changes : List Change} (hne : changes ≠ [])
    (hbatch : (visited store files stage p).batch.only path = Batch.empty.add path changes) :
    let all := visited store files stage p
    (all.batch.flush store false all.tree).1.only path = Batch.Flushed.note path changes.length
      (Batch.flushPath store path changes (flushTree store files stage p path)).1 ⟨[], []⟩ := by
  dsimp only
  have hadd : Batch.empty.add path changes = ⟨[(path, changes)]⟩ := by simp [Batch.add, Batch.empty, hne]
  have hpending : (visited store files stage p).batch.pending path = changes := by
    rw [← Batch.pending_only, hbatch, hadd]
    simp [Batch.pending]
  have honce : (visited store files stage p).batch.paths.count path = 1 := by
    have hpaths := Batch.paths_only path (visited store files stage p).batch
    rw [hbatch, hadd] at hpaths
    have hlength := congrArg List.length hpaths
    rw [List.filter_eq, List.length_replicate] at hlength
    rw [← hlength, Batch.paths, Bytes.sort, List.length_mergeSort]
    rfl
  have hreach := Batch.flushPaths_reaches store honce (visited store files stage p).batch
    (visited store files stage p).tree
  rw [hpending] at hreach
  exact hreach

theorem mem_changed_iff (f : Batch.Flushed) : path ∈ f.changed.map Prod.fst ↔ (f.only path).changed ≠ [] := by
  simp [Batch.Flushed.only]

/-- What a stage with edits for a file makes of it. -/
theorem runStage_of_edits {changes : List Change} (hne : changes ≠ [])
    (hun : (visited store files stage p).cancelled = false)
    (hstate : (visited store files stage p).states.at? path = some (p.states.get path stage.rule.kind))
    (hbatch : (visited store files stage p).batch.only path = Batch.empty.add path changes) :
    let after := runStage store files stage p
    let state := p.states.get path stage.rule.kind
    match (Batch.flushPath store path changes (flushTree store files stage p path)).1 with
    | .error e => path ∉ after.1.files ∧ after.2.states.at? path = some (state.failAt stage (flushFault e))
    | .ok false => path ∉ after.1.files ∧ after.2.states.at? path = some state
    | .ok true => path ∈ after.1.files ∧ after.2.states.at? path = some (state.advance stage changes.length) := by
  have hflushed := flushed_of_edits hne hbatch
  have hfiles : path ∈ (runStage store files stage p).1.files ↔
      let all := visited store files stage p
      ((all.batch.flush store all.cancelled all.tree).1.only path).changed ≠ [] := mem_changed_iff _
  have hstates : (runStage store files stage p).2.states.at? path =
      let all := visited store files stage p
      (record stage ((all.batch.flush store all.cancelled all.tree).1.only path) all.states).at? path :=
    at?_record stage _ path rfl
  have hupdate (f : FileState → FileState) (hf : ∀ x, (f x).path = x.path) :
      ((visited store files stage p).states.update path stage.rule.kind f).at? path =
        some (f (p.states.get path stage.rule.kind)) := by
    rw [States.at?_update _ _ _ hf, States.get_eq, hstate]
    rfl
  dsimp only at hflushed hfiles hstates ⊢
  rw [hun, hflushed] at hfiles hstates
  generalize (Batch.flushPath store path changes (flushTree store files stage p path)).1 = outcome at *
  cases outcome with
  | error e =>
    refine ⟨fun h => absurd rfl (hfiles.mp h), hstates.trans ?_⟩
    exact hupdate (FileState.failAt stage (flushFault e)) fun _ => rfl
  | ok done =>
    cases done with
    | false => exact ⟨fun h => absurd rfl (hfiles.mp h), hstates.trans hstate⟩
    | true =>
      refine ⟨hfiles.mpr (List.cons_ne_nil _ _), hstates.trans ?_⟩
      exact hupdate (FileState.advance stage changes.length) fun _ => rfl

/-- Where edits do not apply, a flush ends with its reading and says what is wrong with them. -/
theorem flushPath_misplaced {t : σ} {content : Bytes} {changes : List Change} {e : ApplyError}
    (hread : (store.read path t).1 = .ok content) (happly : applyChanges content changes = .error e) :
    ∃ fault : Fault, Batch.flushPath store path changes t = (.error fault, (store.read path t).2) ∧
      ((fault.isConflict || fault.isMisfit) = true ∨ ∃ c ∈ changes, c.wraps = true) := by
  unfold Batch.flushPath
  generalize store.read path t = reading at hread ⊢
  obtain ⟨outcome, u⟩ := reading
  obtain rfl : outcome = .ok content := hread
  dsimp only
  rw [happly]
  cases e with
  | invalid e => exact ⟨_, rfl, Or.inl (by simp [Fault.isConflict, Fault.isMisfit, Fault.leaves])⟩
  | conflict e => exact ⟨_, rfl, Or.inl (by simp [Fault.isConflict, Fault.isMisfit, Fault.leaves])⟩
  | crash stop => exact ⟨_, rfl, Or.inr (wraps_of_crash happly)⟩

theorem flushPath_placed {t : σ} {content next : Bytes} {changes : List Change}
    (hread : (store.read path t).1 = .ok content) (happly : applyChanges content changes = .ok next)
    (hne : next ≠ content) (hwrite : (store.overwrite path next (store.read path t).2).1 = .ok ()) :
    (Batch.flushPath store path changes t).1 = .ok true := by
  unfold Batch.flushPath
  generalize store.read path t = reading at hread hwrite ⊢
  obtain ⟨outcome, u⟩ := reading
  obtain rfl : outcome = .ok content := hread
  dsimp only at hwrite ⊢
  rw [happly]
  dsimp only
  rw [if_neg (Ne.symm hne)]
  generalize store.overwrite path next u = writing at hwrite ⊢
  obtain ⟨outcome, w⟩ := writing
  obtain rfl : outcome = .ok () := hwrite
  rfl

/-- The edits of a stage apply to what its flush finds in a file, whatever the rule saw: others who
change the file in between are noticed just when an edit is out of place in their content. The bound is that of memory,
which holds no longer content. -/
theorem runStage_stale (store : Store σ) (files : FileSet) (stage : Stage) (p : Progress σ) (path : Bytes)
    {content other : Bytes} {changes : List Change}
    (honce : (files.files stage.rule.kind).count path = 1)
    (hun : (runStage store files stage p).2.cancelled = false) (hlive : givenUp stage p path = false)
    (hrule : ruleReading store files stage p path = .ok content)
    (hedits : (applyRule stage content path (p.states.get path stage.rule.kind)).edits = .ok changes)
    (sep : Separate content changes) (hflush : flushReading store files stage p path = .ok other) :
    let after := runStage store files stage p
    let state := p.states.get path stage.rule.kind
    let tree := flushTree store files stage p path
    ((∃ c ∈ changes, ¬c.InPlace other) →
      path ∉ after.1.files ∧ (Batch.flushPath store path changes tree).2 = (store.read path tree).2 ∧
        ∃ e : Fault, (content.length < 0x8000000000000000 → (e.isConflict || e.isMisfit) = true) ∧
          after.2.states.at? path = some (state.failAt stage e)) ∧
    ((∀ c ∈ changes, c.InPlace other) → ∃ next, applyChanges other changes = .ok next ∧
      (next ≠ other → (store.overwrite path next (store.read path tree).2).1 = .ok () →
        path ∈ after.1.files ∧ after.2.states.at? path = some (state.advance stage changes.length))) := by
  dsimp only
  have hall : (visited store files stage p).cancelled = false := hun
  have hverdict : (verdictOn stage path (p.states.get path stage.rule.kind)
      (ruleReading store files stage p path)).edits = .ok changes := by
    rw [hrule]
    exact hedits
  obtain ⟨hstate, hbatch⟩ := visited_of_edits honce hall hlive hverdict
  refine ⟨?_, ?_⟩
  · rintro ⟨c, hc, hmisplaced⟩
    have hfails : ¬∃ next, applyChanges other changes = .ok next :=
      fun h => hmisplaced (sep.applyChanges_ok_iff.mp h c hc)
    cases happly : applyChanges other changes with
    | ok next => exact absurd ⟨next, happly⟩ hfails
    | error e =>
      obtain ⟨fault, hfault, hkind⟩ := flushPath_misplaced hflush happly
      have hafter := runStage_of_edits (List.ne_nil_of_mem hc) hall hstate hbatch
      rw [hfault] at hafter ⊢
      refine ⟨hafter.1, rfl, flushFault fault, fun hlen => ?_, hafter.2⟩
      have hkind : (fault.isConflict || fault.isMisfit) = true := by
        refine hkind.resolve_right fun ⟨c, hc, hwraps⟩ => ?_
        rw [sep.wraps_eq_false hlen c hc] at hwraps
        cases hwraps
      have hsame : flushFault fault = fault := if_pos hkind
      rwa [hsame]
  · intro hplaced
    obtain ⟨next, happly⟩ := sep.applyChanges_ok_iff.mpr hplaced
    refine ⟨next, happly, fun hne hwrite => ?_⟩
    have hchanges : changes ≠ [] := by
      rintro rfl
      exact hne (Except.ok.inj (happly.symm.trans (applyChanges_nil other)))
    have hafter := runStage_of_edits hchanges hall hstate hbatch
    rw [flushPath_placed hflush happly hne hwrite] at hafter
    exact hafter

/-- A replacement that no longer finds its text is not made. -/
theorem runStage_stale_replace :
    let store := Memory.store.shared fun n m => if n = 1 then Memory.ofFiles [("a", "two")] else m
    let stage : Stage := ⟨.pure "mark" "" "" .style fun _ => [.replace 0 "one" "1"], ""⟩
    let start : Progress (Nat × Memory) := ⟨(0, Memory.ofFiles [("a", "one")]), [], .empty, false, []⟩
    let after := runStage store ⟨[], ["a"], []⟩ stage start
    bytes "a" ∉ after.1.files ∧ ∃ e : Fault, (e.isConflict || e.isMisfit) = true ∧
      after.2.states.at? "a" = some ⟨"a", .style, [], 0, [], some ("mark", e)⟩ := by
  intro store stage start after
  have hrule : ruleReading store ⟨[], ["a"], []⟩ stage start "a" = .ok (bytes "one") := by cbv
  have hflush : flushReading store ⟨[], ["a"], []⟩ stage start "a" = .ok (bytes "two") := by cbv
  have hedits : (applyRule stage "one" "a" (start.states.get "a" .style)).edits =
      .ok [.replace 0 "one" "1"] := by cbv
  have hun : (visited store ⟨[], ["a"], []⟩ stage start).cancelled = false := by cbv
  have hlive : givenUp stage start "a" = false := by cbv
  have honce : (FileSet.files ⟨[], ["a"], []⟩ .style).count (bytes "a") = 1 := by cbv
  have hsep : Separate "one" [.replace 0 "one" "1"] := by
    constructor <;> decide
  have hmisplaced : ¬(Change.replace 0 "one" "1").InPlace "two" :=
    fun h => absurd (h.found rfl) (by decide)
  obtain ⟨hfiles, -, e, he, hstate⟩ := (runStage_stale store ⟨[], ["a"], []⟩ stage start "a" honce hun hlive hrule
    hedits hsep hflush).1 ⟨_, List.mem_cons_self .., hmisplaced⟩
  exact ⟨hfiles, e, he (by decide), hstate⟩

/-- An insertion is made in whatever stands there now. -/
theorem runStage_stale_insert :
    let store := Memory.store.shared fun n m => if n = 1 then Memory.ofFiles [("a", "two")] else m
    let stage : Stage := ⟨.pure "mark" "" "" .style fun _ => [.insert 0 "x"], ""⟩
    let start : Progress (Nat × Memory) := ⟨(0, Memory.ofFiles [("a", "one")]), [], .empty, false, []⟩
    let after := runStage store ⟨[], ["a"], []⟩ stage start
    ruleReading store ⟨[], ["a"], []⟩ stage start "a" = .ok (bytes "one") ∧
      flushReading store ⟨[], ["a"], []⟩ stage start "a" = .ok (bytes "two") ∧
      after.1.files = ["a"] ∧ after.2.tree.2.file? "a" = some ⟨"a", "xtwo", 1⟩ ∧
      after.2.states.at? "a" = some ⟨"a", .style, [], 1, ["mark"], none⟩ := by
  refine ⟨by cbv, by cbv, by cbv, by cbv, by cbv⟩

end OneFile

end Migration

end Codemod
