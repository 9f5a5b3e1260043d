import Codemod.Proofs.Edit.Atomic
import Codemod.Proofs.Migration.Interference

namespace Codemod.Migration

open Edit Workspace

theorem States.get_congr {s s' : States} {path : Bytes} (h : s.at? path = s'.at? path) (kind : Kind) :
    s.get path kind = s'.get path kind := by
  rw [States.get_eq, States.get_eq, h]

section Asked

variable {σ : Type} (store : Store σ) (stage : Stage)

/-- The files that a stage comes to: all of them, unless it is cancelled on the way. -/
def comesTo : List Bytes → Progress σ → List Bytes
  | [], _ => []
  | q :: rest, p => if p.cancelled then [] else q :: comesTo rest (visit store stage p q)

/-- What a stage has of a file after it asked its rule so many times about it: the state of the file
and the edits that wait for it. -/
def asked (p : Progress σ) (q : Bytes) (times : Nat) : FileState × List Change :=
  let state := p.states.get q stage.rule.kind
  if givenUp stage p q then (state, [])
  else match (verdictAt store stage p q).edits with
    | .error e => (state.failAt stage e, [])
    | .ok changes => (state, (List.replicate times changes).flatten)

end Asked

section Visits

variable {σ : Type} {store : Store σ} {stage : Stage} {p : Progress σ}

theorem visit_of_cancelled (hp : p.cancelled = true) (q : Bytes) : visit store stage p q = p := if_pos hp

theorem foldl_visit_of_cancelled (hp : p.cancelled = true) (paths : List Bytes) :
    paths.foldl (visit store stage) p = p := by
  induction paths with
  | nil => rfl
  | cons q rest ih => rw [List.foldl_cons, visit_of_cancelled hp, ih]

theorem foldl_comesTo (paths : List Bytes) (p : Progress σ) :
    (comesTo store stage paths p).foldl (visit store stage) p = paths.foldl (visit store stage) p := by
  induction paths generalizing p with
  | nil => rfl
  | cons q rest ih =>
    rw [comesTo]
    split
    · next hp => exact (foldl_visit_of_cancelled hp _).symm
    · exact ih _

theorem comesTo_comesTo (paths : List Bytes) (p : Progress σ) :
    comesTo store stage (comesTo store stage paths p) p = comesTo store stage paths p := by
  induction paths generalizing p with
  | nil => rfl
  | cons q rest ih =>
    rw [comesTo]
    split
    · rfl
    · next hp => rw [comesTo, if_neg hp, ih]

/-- A stage that is not cancelled comes to all of its files. -/
theorem comesTo_of_uncancelled {paths : List Bytes} (h : (paths.foldl (visit store stage) p).cancelled = false) :
    comesTo store stage paths p = paths := by
  induction paths generalizing p with
  | nil => rfl
  | cons q rest ih =>
    have hp := foldl_visit_cancelled h
    rw [comesTo, if_neg (by simp [hp]), ih h]

/-- A stage that is cancelled on its way is so by the last file that it came to. -/
theorem exists_cancelling (store : Store σ) (stage : Stage) {paths : List Bytes} (hp : p.cancelled = false)
    (h : (paths.foldl (visit store stage) p).cancelled = true) :
    ∃ first q rest, paths = first ++ q :: rest ∧ comesTo store stage paths p = first ++ [q] ∧
      let there := first.foldl (visit store stage) p
      there.cancelled = false ∧ givenUp stage there q = false ∧ (verdictAt store stage there q).cancels = true := by
  induction paths generalizing p with
  | nil => exact absurd (hp.symm.trans h) Bool.false_ne_true
  | cons q rest ih =>
    rw [comesTo, if_neg (by simp [hp])]
    cases hvisit : (visit store stage p q).cancelled with
    | false =>
      obtain ⟨first, q', rest', hsplit, hcomes, hthere⟩ := ih hvisit h
      exact ⟨q :: first, q', rest', by rw [hsplit]; rfl, by rw [hcomes]; rfl, hthere⟩
    | true =>
      have hnone (paths : List Bytes) : comesTo store stage paths (visit store stage p q) = [] := by
        cases paths with
        | nil => rfl
        | cons => rw [comesTo, if_pos hvisit]
      refine ⟨[], q, rest, rfl, by rw [hnone]; rfl, hp, ?_⟩
      obtain ⟨log, heq⟩ := visit_eq store stage q hp
      rw [heq] at hvisit
      split at hvisit
      · exact absurd (hp.symm.trans hvisit) Bool.false_ne_true
      · next hgiven =>
        refine ⟨by simpa using hgiven, ?_⟩
        dsimp only at hvisit
        split at hvisit
        · exact hvisit
        · exact hvisit

theorem visit_sound (h : p.batch.Sound) (q : Bytes) : (visit store stage p q).batch.Sound := by
  by_cases hp : p.cancelled = true
  · rw [visit_of_cancelled hp]
    exact h
  · obtain ⟨log, heq⟩ := visit_eq store stage q (by simpa using hp)
    rw [heq]
    split
    · exact h
    · dsimp only
      split
      · exact h
      · exact h.add q _

/-- The batch of a stage has one entry for a file with edits. -/
theorem foldl_visit_sound (h : p.batch.Sound) (paths : List Bytes) :
    (paths.foldl (visit store stage) p).batch.Sound := by
  induction paths generalizing p with
  | nil => exact h
  | cons q rest ih => exact ih (visit_sound h q)

theorem asked_congr (store : Store σ) {a b : Progress σ} {q : Bytes} (htree : a.tree = b.tree)
    (hget : a.states.get q stage.rule.kind = b.states.get q stage.rule.kind) :
    givenUp stage a q = givenUp stage b q ∧ verdictAt store stage a q = verdictAt store stage b q ∧
      asked store stage a q = asked store stage b q := by
  have hgiven : givenUp stage a q = givenUp stage b q := by rw [givenUp, givenUp, hget]
  have hverdict : verdictAt store stage a q = verdictAt store stage b q := by rw [verdictAt, verdictAt, hget, htree]
  refine ⟨hgiven, hverdict, funext fun times => ?_⟩
  rw [asked, asked, hget, hgiven, hverdict]


/-- A visit passes over a file that was given up. -/
theorem visit_of_failure (store : Store σ) (stage : Stage) {path : Bytes} {st : FileState} (hst : p.states.at? path = some st)
    (hfailure : st.failure.isSome) (q : Bytes) :
    (visit store stage p q).states.at? path = some st ∧
      (visit store stage p q).batch.pending path = p.batch.pending path := by
  by_cases hp : p.cancelled = true
  · rw [visit_of_cancelled hp]
    exact ⟨hst, rfl⟩
  have hun : p.cancelled = false := by simpa using hp
  by_cases hq : q = path
  · subst hq
    have hget : p.states.get q stage.rule.kind = st := by rw [States.get_eq, hst, Option.getD_some]
    have hgiven : givenUp stage p q = true := by
      rw [givenUp, hget]
      exact hfailure
    obtain ⟨log, heq⟩ := visit_eq store stage q hun
    rw [heq, if_pos hgiven]
    exact ⟨(States.at?_see ..).trans (congrArg some hget), rfl⟩
  · obtain ⟨hstate, hbatch⟩ := visit_elsewhere store hq stage hun
    rw [← Batch.pending_only, hbatch, Batch.pending_only]
    exact ⟨hstate.trans hst, rfl⟩

theorem foldl_visit_of_failure (store : Store σ) (stage : Stage) {path : Bytes} {st : FileState} (hst : p.states.at? path = some st)
    (hfailure : st.failure.isSome) (paths : List Bytes) :
    (paths.foldl (visit store stage) p).states.at? path = some st ∧
      (paths.foldl (visit store stage) p).batch.pending path = p.batch.pending path := by
  induction paths generalizing p with
  | nil => exact ⟨hst, rfl⟩
  | cons q rest ih =>
    obtain ⟨hvisit, hqueued⟩ := visit_of_failure store stage hst hfailure q
    obtain ⟨hrest, hwaits⟩ := ih hvisit
    exact ⟨hrest, hwaits.trans hqueued⟩

/-- A flush says nothing of a path without changes. -/
theorem flush_only_of_pending {b : Batch} (hb : b.Sound) {path : Bytes} (hpending : b.pending path = [])
    (cancelled : Bool) (t : σ) : (b.flush store cancelled t).1.only path = ⟨[], []⟩ := by
  have hpath : path ∉ b.paths := fun hmem => (hb.mem_paths path).mp hmem hpending
  cases cancelled with
  | false => exact Batch.flushPaths_absent hpath b t
  | true =>
    rw [Batch.flush, Batch.flushPaths_cancelled]
    simpa [Batch.Flushed.only] using fun q hq (he : q = path) => hpath (he ▸ hq)

/-- The state of a file that a stage has no edits for is the one that its visits left. -/
theorem runStage_state_of_pending {files : FileSet} {path : Bytes}
    (hpending : (visited store files stage p).batch.pending path = []) :
    (runStage store files stage p).2.states.at? path = (visited store files stage p).states.at? path := by
  have hsound : (visited store files stage p).batch.Sound := foldl_visit_sound (Batch.sound_collect []) _
  have hrecord := at?_record stage
    ((visited store files stage p).batch.flush store (visited store files stage p).cancelled
      (visited store files stage p).tree).1 path (s := (visited store files stage p).states) rfl
  rw [flush_only_of_pending hsound hpending] at hrecord
  exact hrecord

/-- A stage leaves the state of a file alone that was given up. -/
theorem runStage_of_failure {files : FileSet} {path : Bytes} {st : FileState} (hst : p.states.at? path = some st)
    (hfailure : st.failure.isSome) : (runStage store files stage p).2.states.at? path = some st := by
  obtain ⟨hstate, hpending⟩ := foldl_visit_of_failure store stage
    (p := { p with batch := .empty }) hst hfailure (files.files stage.rule.kind)
  exact (runStage_state_of_pending hpending).trans hstate

theorem runStages_of_failure (store : Store σ) (disabled : List String) (files : FileSet) (version : Version)
    (stages : List Stage) {path : Bytes} {st : FileState} (hst : p.states.at? path = some st) (hfailure : st.failure.isSome) :
    (runStages store disabled files version stages p).progress.states.at? path = some st := by
  induction stages generalizing p with
  | nil => exact hst
  | cons stage rest ih =>
    rw [runStages]
    split
    · exact hst
    · dsimp only
      split
      · exact ih hst
      · exact ih (runStage_of_failure hst hfailure)

end Visits

section Reading

variable {σ : Type} {store : Store σ} (hread : ∀ q t, (store.read q t).2 = t) {stage : Stage} {p : Progress σ}

include hread

theorem visit_asked (stage : Stage) (hp : p.cancelled = false) (q : Bytes) :
    let next := visit store stage p q
    next.tree = p.tree ∧ next.states.at? q = some (asked store stage p q 1).1 ∧
      next.batch.pending q = p.batch.pending q ++ (asked store stage p q 1).2 := by
  obtain ⟨log, heq⟩ := visit_eq store stage q hp
  have hsee := States.at?_see p.states q stage.rule.kind
  rw [heq]
  unfold asked
  cases givenUp stage p q with
  | true => exact ⟨rfl, hsee, (List.append_nil _).symm⟩
  | false =>
    dsimp only
    rw [if_neg Bool.false_ne_true, if_neg Bool.false_ne_true]
    cases (verdictAt store stage p q).edits with
    | error e =>
      have hfail := States.at?_update (p.states.see q stage.rule.kind) q stage.rule.kind
        (f := FileState.failAt stage e) fun _ => rfl
      rw [States.get_see] at hfail
      exact ⟨hread q p.tree, hfail, (List.append_nil _).symm⟩
    | ok changes =>
      refine ⟨hread q p.tree, hsee, ?_⟩
      dsimp only
      rw [Batch.pending_add_self, List.replicate_one, List.flatten_singleton]

/-- To ask about a file again is to queue the same edits again, unless the first answer gave it up. -/
theorem asked_visit (stage : Stage) (hp : p.cancelled = false) (q : Bytes) (times : Nat) :
    let next := visit store stage p q
    (asked store stage next q times).1 = (asked store stage p q (times + 1)).1 ∧
      (asked store stage p q 1).2 ++ (asked store stage next q times).2 = (asked store stage p q (times + 1)).2 := by
  obtain ⟨htree, hstate, -⟩ := visit_asked hread stage hp q
  dsimp only at htree hstate ⊢
  have hget : (visit store stage p q).states.get q stage.rule.kind = (asked store stage p q 1).1 := by
    rw [States.get_eq, hstate, Option.getD_some]
  cases hgiven : givenUp stage p q with
  | true =>
    have hfirst (n : Nat) : asked store stage p q n = (p.states.get q stage.rule.kind, []) := by
      rw [asked, hgiven, if_pos rfl]
    have hnext : givenUp stage (visit store stage p q) q = true := by
      rw [givenUp, hget, hfirst]
      exact hgiven
    rw [hfirst, hfirst, asked, hnext, if_pos rfl, hget, hfirst]
    exact ⟨rfl, rfl⟩
  | false =>
    cases hedits : (verdictAt store stage p q).edits with
    | error e =>
      have hfirst (n : Nat) : asked store stage p q n = ((p.states.get q stage.rule.kind).failAt stage e, []) := by
        rw [asked, hgiven, if_neg Bool.false_ne_true, hedits]
      have hnext : givenUp stage (visit store stage p q) q = true := by
        rw [givenUp, hget, hfirst]
        rfl
      rw [hfirst, hfirst, asked, hnext, if_pos rfl, hget, hfirst]
      exact ⟨rfl, rfl⟩
    | ok changes =>
      have hfirst (n : Nat) : asked store stage p q n =
          (p.states.get q stage.rule.kind, (List.replicate n changes).flatten) := by
        rw [asked, hgiven, if_neg Bool.false_ne_true, hedits]
      rw [hfirst] at hget
      obtain ⟨-, -, hnext⟩ := asked_congr store htree hget
      rw [hnext, hfirst, hfirst, hfirst, List.replicate_succ, List.flatten_cons, List.replicate_one, List.flatten_singleton]
      exact ⟨rfl, rfl⟩

/-- What the visits of a stage do: they ask about each file as often as it is listed and change no file. -/
theorem foldl_visit_asked {paths : List Bytes} (hcomes : comesTo store stage paths p = paths) :
    let done := paths.foldl (visit store stage) p
    done.tree = p.tree ∧
      (∀ q ∈ paths, done.states.at? q = some (asked store stage p q (paths.count q)).1 ∧
        done.batch.pending q = p.batch.pending q ++ (asked store stage p q (paths.count q)).2) ∧
      ∀ q, q ∉ paths → done.states.at? q = p.states.at? q ∧ done.batch.pending q = p.batch.pending q := by
  induction paths generalizing p with
  | nil => exact ⟨rfl, by simp, fun q _ => ⟨rfl, rfl⟩⟩
  | cons x rest ih =>
    have hp : p.cancelled = false := by
      by_contra hne
      rw [comesTo, if_pos (by simpa using hne)] at hcomes
      cases hcomes
    rw [comesTo, if_neg (by simp [hp])] at hcomes
    obtain ⟨htree, hlisted, hothers⟩ := ih (List.cons.inj hcomes).2
    obtain ⟨hsame, hstate, hpending⟩ := visit_asked hread stage hp x
    have helse {q : Bytes} (hq : x ≠ q) : (visit store stage p x).states.at? q = p.states.at? q ∧
        (visit store stage p x).batch.pending q = p.batch.pending q := by
      obtain ⟨hstate, hbatch⟩ := visit_elsewhere store hq stage hp
      rw [← Batch.pending_only, hbatch, Batch.pending_only]
      exact ⟨hstate, rfl⟩
    rw [List.foldl_cons]
    refine ⟨htree.trans hsame, fun q hq => ?_, fun q hq => ?_⟩
    · by_cases hx : x = q
      · subst hx
        by_cases hrest : x ∈ rest
        · obtain ⟨hagain, hqueued⟩ := asked_visit hread stage hp x (rest.count x)
          obtain ⟨hlast, hwaits⟩ := hlisted x hrest
          rw [List.count_cons_self, hlast, hwaits, hagain, hpending, List.append_assoc, hqueued]
          exact ⟨rfl, rfl⟩
        · obtain ⟨hlast, hwaits⟩ := hothers x hrest
          rw [List.count_cons_self, List.count_eq_zero_of_not_mem hrest, hlast, hwaits, hstate, hpending]
          exact ⟨rfl, rfl⟩
      · obtain ⟨hlast, hwaits⟩ := hlisted q ((List.mem_cons.mp hq).resolve_left (Ne.symm hx))
        obtain ⟨hstate, hpending⟩ := helse hx
        obtain ⟨-, -, hasked⟩ := asked_congr store hsame (States.get_congr hstate stage.rule.kind)
        rw [List.count_cons_of_ne hx, hlast, hwaits, hpending, hasked]
        exact ⟨rfl, rfl⟩
    · obtain ⟨hx, hrest⟩ := not_or.mp (mt List.mem_cons.mpr hq)
      obtain ⟨hlast, hwaits⟩ := hothers q hrest
      obtain ⟨hstate, hpending⟩ := helse (Ne.symm hx)
      exact ⟨hlast.trans hstate, hwaits.trans hpending⟩

/-- A file that its visits did not give up has the state that it had before them. -/
theorem get_of_live {paths : List Bytes} (hcomes : comesTo store stage paths p = paths) {q : Bytes}
    (hlive : givenUp stage (paths.foldl (visit store stage) p) q = false) :
    (paths.foldl (visit store stage) p).states.get q stage.rule.kind = p.states.get q stage.rule.kind := by
  obtain ⟨-, hlisted, hothers⟩ := foldl_visit_asked hread hcomes
  by_cases hq : q ∈ paths
  · have hget : (paths.foldl (visit store stage) p).states.get q stage.rule.kind =
        (asked store stage p q (paths.count q)).1 := by
      rw [States.get_eq, (hlisted q hq).1, Option.getD_some]
    rw [givenUp, hget] at hlive
    rw [hget]
    unfold asked at hlive ⊢
    split
    · rfl
    · next hgiven =>
      rw [if_neg hgiven] at hlive
      cases hedits : (verdictAt store stage p q).edits with
      | error e =>
        rw [hedits] at hlive
        cases hlive
      | ok changes => rfl
  · exact States.get_congr (hothers q hq).1 stage.rule.kind

end Reading

end Codemod.Migration
