import Codemod.Proofs.Migration.Independence
import Mathlib.Data.List.Nodup

namespace Codemod

open Edit Markup Workspace

/-- No kind lists a path twice. -/
structure Workspace.FileSet.Distinct (s : FileSet) : Prop where
  templates : s.templates.Nodup
  styles : s.styles.Nodup
  sources : s.sources.Nodup

theorem Workspace.FileSet.Distinct.files_only {s : FileSet} (h : s.Distinct) (path : Bytes) (kind : Kind) :
    (path ∉ s.files kind ∧ (s.only path).files kind = []) ∨
      (path ∈ s.files kind ∧ (s.only path).files kind = [path]) := by
  have hnodup : (s.files kind).Nodup := by
    cases kind with
    | template => exact (List.mergeSort_perm ..).nodup_iff.mpr h.templates
    | style => exact (List.mergeSort_perm ..).nodup_iff.mpr h.styles
    | source => exact (List.mergeSort_perm ..).nodup_iff.mpr h.sources
    | other => exact List.nodup_nil
  rw [FileSet.files_only, List.filter_eq]
  by_cases hmem : path ∈ s.files kind
  · rw [List.count_eq_one_of_mem hnodup hmem]
    exact Or.inr ⟨hmem, rfl⟩
  · rw [List.count_eq_zero_of_not_mem hmem]
    exact Or.inl ⟨hmem, rfl⟩

namespace Migration

/-- The edits that a rule asks of a content, which it sees parsed if it is a template. -/
def Stage.edits? (stage : Stage) (path content : Bytes) (touched : Bool) : Option (List Change) :=
  let ask (document : Option Document) :=
    (stage.rule.apply ⟨path, content, document, touched, false⟩).edits.toOption
  if stage.rule.kind = .template then (Document.parse path content).toOption.bind fun d => ask (some d)
  else ask none

theorem edits?_eq_some_iff {stage : Stage} {content path : Bytes} {state : FileState} {changes : List Change} :
    stage.edits? path content (!stage.group.isEmpty && state.touched.contains stage.group) = some changes ↔
      (applyRule stage content path state).edits = .ok changes := by
  have hedits (v : Verdict) (named : Fault → Fault) :
      v.edits.toOption = some changes ↔ v.edits.mapError named = .ok changes := by
    cases v.edits with
    | error e => simp [Except.toOption, Except.mapError]
    | ok cs => simp [Except.toOption, Except.mapError]
  unfold applyRule Stage.edits?
  by_cases hkind : stage.rule.kind = .template
  · cases hparse : Document.parse path content with
    | error e => simp [hkind, Except.toOption]
    | ok d =>
      simp only [hkind, if_true]
      exact hedits _ _
  · simp only [hkind, if_false]
    exact hedits _ _

/-- A file on its way through the stages. -/
structure FileView where
  file : Option MemoryFile
  state : Option FileState

def Progress.view (path : Bytes) (p : Progress Memory) : FileView := ⟨p.tree.file? path, p.states.at? path⟩

def FileView.current (path : Bytes) (kind : Kind) (v : FileView) : FileState := v.state.getD (States.begun path kind)

/-- What a stage can do to one file: not look at it, pass over it, keep it, give it up or write it.
The list is what it reports of the file. `free` says that the store refuses nothing. -/
inductive FileStep (free : Prop) (path : Bytes) (stage : Stage) (looks : Bool) (v : FileView) :
    FileView → List (Bytes × Nat) → Prop
  | unseen (seen : looks = false) : FileStep free path stage looks v v []
  | passedOver (seen : looks = true) (dead : (v.current path stage.rule.kind).failure.isSome = true) :
      FileStep free path stage looks v ⟨v.file, some (v.current path stage.rule.kind)⟩ []
  | kept (seen : looks = true) (live : (v.current path stage.rule.kind).failure.isSome = false)
      {f : MemoryFile} {changes : List Change} (before : v.file = some f)
      (asks : stage.edits? path f.content (!stage.group.isEmpty &&
        (v.current path stage.rule.kind).touched.contains stage.group) = some changes)
      (apply : applyChanges f.content changes = .ok f.content) :
      FileStep free path stage looks v ⟨v.file, some (v.current path stage.rule.kind)⟩ []
  | failed (seen : looks = true) (live : (v.current path stage.rule.kind).failure.isSome = false) (e : Fault)
      (why : free → ∀ f changes next, v.file = some f → stage.edits? path f.content (!stage.group.isEmpty &&
        (v.current path stage.rule.kind).touched.contains stage.group) = some changes →
          applyChanges f.content changes ≠ .ok next) :
      FileStep free path stage looks v ⟨v.file, some ((v.current path stage.rule.kind).failAt stage e)⟩ []
  | written (seen : looks = true) (live : (v.current path stage.rule.kind).failure.isSome = false)
      {f : MemoryFile} {changes : List Change} {next : Bytes} (before : v.file = some f)
      (asks : stage.edits? path f.content (!stage.group.isEmpty &&
        (v.current path stage.rule.kind).touched.contains stage.group) = some changes)
      (apply : applyChanges f.content changes = .ok next) (changed : f.content ≠ next) :
      FileStep free path stage looks v
        ⟨some (f.rewritten next), some ((v.current path stage.rule.kind).advance stage changes.length)⟩
        [(path, changes.length)]

section Step

variable {free : Prop} {path : Bytes} {stage : Stage} {looks : Bool} {v u w : FileView} {writes : List (Bytes × Nat)}

theorem FileStep.of_eq (h : FileStep free path stage looks v u writes) (hfile : w.file = u.file)
    (hstate : w.state = u.state) : FileStep free path stage looks v w writes := by
  obtain ⟨file, state⟩ := w
  obtain rfl : file = u.file := hfile
  obtain rfl : state = u.state := hstate
  exact h

theorem FileStep.length_le (h : FileStep free path stage looks v u writes) : writes.length ≤ 1 := by
  cases h <;> simp

/-- A file that was given up stays as it is. -/
theorem FileStep.eq_of_failure (h : FileStep free path stage looks v u writes) {st : FileState}
    (hst : v.state = some st) (hfailure : st.failure.isSome) : u = v := by
  have hcurrent : v.current path stage.rule.kind = st := by rw [FileView.current, hst, Option.getD_some]
  cases h with
  | unseen => rfl
  | passedOver => rw [hcurrent, ← hst]
  | kept _ live =>
    rw [hcurrent, hfailure] at live
    cases live
  | failed _ live =>
    rw [hcurrent, hfailure] at live
    cases live
  | written _ live =>
    rw [hcurrent, hfailure] at live
    cases live

/-- A stage that looks at a file and does not give it up has asked for edits that apply. -/
theorem FileStep.exists_applied {free : Prop} {path : Bytes} {stage : Stage} {v u : FileView}
    {writes : List (Bytes × Nat)} (h : FileStep free path stage true v u writes)
    (hlive : ∀ st, u.state = some st → st.failure = none) :
    ∃ f g touched changes, v.file = some f ∧ u.file = some g ∧ stage.edits? path f.content touched = some changes ∧
      applyChanges f.content changes = .ok g.content := by
  cases h with
  | unseen seen => cases seen
  | passedOver _ dead =>
    rw [hlive _ rfl] at dead
    cases dead
  | kept _ _ before asks apply => exact ⟨_, _, _, _, before, before, asks, apply⟩
  | failed => cases hlive _ rfl
  | written _ _ before asks apply => exact ⟨_, _, _, _, before, rfl, asks, apply⟩

theorem FileStep.eq_of_unseen (h : FileStep free path stage false v u writes) : u = v := by
  cases h with
  | unseen => rfl
  | passedOver seen => cases seen
  | kept seen => cases seen
  | failed seen => cases seen
  | written seen => cases seen

end Step

section Memory

variable {unreadable unwritable : Bytes → Option Fault}

theorem read_refusing (unreadable unwritable : Bytes → Option Fault) (path : Bytes) (t : Memory) :
    ((Memory.store.refusing unreadable unwritable).read path t).2 = t ∧
      (∀ content, ((Memory.store.refusing unreadable unwritable).read path t).1 = .ok content →
        ∃ f, t.file? path = some f ∧ f.content = content) ∧
      ∀ f, unreadable path = none → t.file? path = some f →
        ((Memory.store.refusing unreadable unwritable).read path t).1 = .ok f.content := by
  unfold Store.refusing Memory.store Memory.read
  dsimp only
  cases unreadable path with
  | some e => exact ⟨rfl, by rintro content ⟨⟩, by rintro f ⟨⟩⟩
  | none =>
    cases t.file? path with
    | none => exact ⟨rfl, by rintro content ⟨⟩, by rintro f - ⟨⟩⟩
    | some f =>
      refine ⟨rfl, fun content h => ⟨f, rfl, Except.ok.inj h⟩, fun g _ h => ?_⟩
      rw [Option.some.inj h]

theorem edits?_of_verdictAt {path : Bytes} {stage : Stage} {p : Progress Memory} {changes : List Change}
    (h : (verdictAt (Memory.store.refusing unreadable unwritable) stage p path).edits = .ok changes) :
    ∃ f, p.tree.file? path = some f ∧ stage.edits? path f.content (!stage.group.isEmpty &&
      (p.states.get path stage.rule.kind).touched.contains stage.group) = some changes := by
  obtain ⟨-, hcontent, -⟩ := read_refusing unreadable unwritable path p.tree
  unfold verdictAt at h
  generalize ((Memory.store.refusing unreadable unwritable).read path p.tree).1 = content at hcontent h
  cases content with
  | error e => cases h
  | ok content =>
    obtain ⟨f, hf, rfl⟩ := hcontent content rfl
    exact ⟨f, hf, edits?_eq_some_iff.mpr h⟩

/-- A flush of one path leaves its file alone or writes the edited content. -/
theorem flushPath_cases (unreadable unwritable : Bytes → Option Fault) (path : Bytes) (changes : List Change)
    (t : Memory) :
    let flushed := Batch.flushPath (Memory.store.refusing unreadable unwritable) path changes t
    (∃ e, flushed.1 = .error e ∧ flushed.2.file? path = t.file? path ∧
      (unreadable path = none → unwritable path = none → ∀ f next, t.file? path = some f →
        applyChanges f.content changes ≠ .ok next)) ∨
    (flushed.1 = .ok false ∧ flushed.2.file? path = t.file? path ∧
      ∃ f, t.file? path = some f ∧ applyChanges f.content changes = .ok f.content) ∨
    (∃ f next, t.file? path = some f ∧ applyChanges f.content changes = .ok next ∧ f.content ≠ next ∧
      flushed.1 = .ok true ∧ flushed.2.file? path = some (f.rewritten next)) := by
  obtain ⟨htree, hcontent, hread⟩ := read_refusing unreadable unwritable path t
  unfold Batch.flushPath
  generalize (Memory.store.refusing unreadable unwritable).read path t = reading at htree hcontent hread
  obtain ⟨content, t'⟩ := reading
  obtain rfl : t' = t := htree
  cases content with
  | error e =>
    refine Or.inl ⟨_, rfl, rfl, fun hreadable _ f next hf => ?_⟩
    cases hread f hreadable hf
  | ok content =>
    obtain ⟨f, hf, rfl⟩ := hcontent content rfl
    have hsame {g : MemoryFile} (hg : t'.file? path = some g) : g = f := Option.some.inj (hg.symm.trans hf)
    dsimp only
    cases happly : applyChanges f.content changes with
    | error e =>
      have hwhy : unreadable path = none → unwritable path = none → ∀ g next, t'.file? path = some g →
          applyChanges g.content changes ≠ .ok next := by
        intro _ _ g next hg hok
        rw [hsame hg, happly] at hok
        cases hok
      cases e <;> exact Or.inl ⟨_, rfl, rfl, hwhy⟩
    | ok next =>
      dsimp only
      split
      · next heq => exact Or.inr (Or.inl ⟨rfl, rfl, f, hf, by rw [happly, heq]⟩)
      · next hne =>
        unfold Store.refusing Memory.store
        dsimp only
        cases hwritable : unwritable path with
        | some e => exact Or.inl ⟨_, rfl, rfl, fun _ h => by cases h⟩
        | none =>
          obtain ⟨m', hm, hfile, -⟩ := Memory.overwrite_eq_ok next hf
          rw [hm]
          exact Or.inr (Or.inr ⟨f, next, hf, happly, hne, rfl, hfile⟩)

/-- Edits that wait for one file are flushed and noted in its state. -/
theorem settle_cases (unreadable unwritable : Bytes → Option Fault) (path : Bytes) (stage : Stage)
    (changes : List Change) (t : Memory) (states : States) :
    let flushed := Batch.flush (Memory.store.refusing unreadable unwritable) ⟨[(path, changes)]⟩ false t
    let after := (record stage flushed.1 (states.see path stage.rule.kind)).at? path
    (flushed.1.changed = [] ∧ flushed.2.file? path = t.file? path ∧
      (∃ e, after = some ((states.get path stage.rule.kind).failAt stage e)) ∧
      (unreadable path = none → unwritable path = none → ∀ f next, t.file? path = some f →
        applyChanges f.content changes ≠ .ok next)) ∨
    (flushed.1.changed = [] ∧ flushed.2.file? path = t.file? path ∧
      after = some (states.get path stage.rule.kind) ∧
      ∃ f, t.file? path = some f ∧ applyChanges f.content changes = .ok f.content) ∨
    (flushed.1.changed = [(path, changes.length)] ∧ ∃ f next, t.file? path = some f ∧
      applyChanges f.content changes = .ok next ∧ f.content ≠ next ∧
      flushed.2.file? path = some (f.rewritten next) ∧
      after = some ((states.get path stage.rule.kind).advance stage changes.length)) := by
  have hsee := States.at?_see states path stage.rule.kind
  have hupdate (f : FileState → FileState) (hf : ∀ x, (f x).path = x.path) :
      ((states.see path stage.rule.kind).update path stage.rule.kind f).at? path =
        some (f (states.get path stage.rule.kind)) := by
    rw [States.at?_update _ _ _ hf, States.get_see]
  have hcases := flushPath_cases unreadable unwritable path changes t
  rw [Batch.flush_singleton]
  generalize Batch.flushPath (Memory.store.refusing unreadable unwritable) path changes t = flushed at hcases ⊢
  obtain ⟨outcome, t'⟩ := flushed
  rcases hcases with ⟨e, rfl, hfile, hwhy⟩ | ⟨rfl, hfile, hsame⟩ | ⟨f, next, hf, happly, hne, rfl, hfile⟩
  · exact Or.inl ⟨rfl, hfile, ⟨flushFault e, hupdate (FileState.failAt stage _) fun _ => rfl⟩, hwhy⟩
  · exact Or.inr (Or.inl ⟨rfl, hfile, hsee, hsame⟩)
  · exact Or.inr (Or.inr ⟨rfl, f, next, hf, happly, hne, hfile,
      hupdate (FileState.advance stage _) fun _ => rfl⟩)

/-- A stage that looks at one file. -/
theorem runStage_single {path : Bytes} {stage : Stage} {files : FileSet} {b : Progress Memory}
    (hfiles : files.files stage.rule.kind = [path])
    (hun : (runStage (Memory.store.refusing unreadable unwritable) files stage b).2.cancelled = false) :
    FileStep (unreadable path = none ∧ unwritable path = none) path stage true (b.view path)
      ((runStage (Memory.store.refusing unreadable unwritable) files stage b).2.view path)
      (written (Memory.store.refusing unreadable unwritable) files stage b) := by
  rw [runStage_cancelled] at hun
  unfold runStage Batch.drain written
  rw [hfiles, List.foldl_cons, List.foldl_nil] at hun ⊢
  have hb : ({ b with batch := .empty } : Progress Memory).cancelled = false := visit_cancelled hun
  obtain ⟨log, hvisit⟩ := visit_eq (Memory.store.refusing unreadable unwritable) stage path hb
  have hsee := States.at?_see b.states path stage.rule.kind
  obtain ⟨htree, hcontent, hread⟩ := read_refusing unreadable unwritable path b.tree
  rw [hvisit] at hun ⊢
  cases hgiven : givenUp stage b path with
  | true =>
    have hgiven' : givenUp stage { b with batch := .empty } path = true := hgiven
    simp only [hgiven', if_true, Batch.flush_empty]
    exact .of_eq (.passedOver rfl hgiven) rfl hsee
  | false =>
    have hgiven' : givenUp stage { b with batch := .empty } path = false := hgiven
    have hlive : ((b.view path).current path stage.rule.kind).failure.isSome = false := hgiven
    simp only [hgiven', Bool.false_eq_true, if_false] at hun ⊢
    cases hedits : (verdictAt (Memory.store.refusing unreadable unwritable) stage
        { b with batch := .empty } path).edits with
    | error e =>
      simp only [Batch.flush_empty]
      have hfail := States.at?_update (b.states.see path stage.rule.kind) path stage.rule.kind
        (f := FileState.failAt stage e) fun _ => rfl
      rw [States.get_see] at hfail
      refine .of_eq (.failed rfl hlive e ?_) (by rw [htree]; rfl) hfail
      rintro ⟨hreadable, -⟩ f changes next hf hasks -
      rw [verdictAt, hread f hreadable hf] at hedits
      cases (edits?_eq_some_iff.mp hasks).symm.trans hedits
    | ok changes =>
      obtain ⟨f, hf, hasks⟩ := edits?_of_verdictAt hedits
      have hsame {g : MemoryFile} (hg : b.tree.file? path = some g) : g = f := Option.some.inj (hg.symm.trans hf)
      rw [hedits] at hun
      dsimp only at hun ⊢
      rw [hun, htree]
      by_cases hnil : changes = []
      · have hadd : Batch.empty.add path [] = .empty := rfl
        rw [hnil, hadd]
        simp only [Batch.flush_empty]
        rw [hnil] at hasks
        exact .of_eq (.kept rfl hlive hf hasks (applyChanges_nil f.content)) rfl hsee
      · have hadd : Batch.empty.add path changes = ⟨[(path, changes)]⟩ := by simp [Batch.add, Batch.empty, hnil]
        rw [hadd]
        rcases settle_cases unreadable unwritable path stage changes b.tree b.states with
          ⟨hnone, hfile, ⟨e, hstate⟩, hwhy⟩ | ⟨hnone, hfile, hstate, g, hg, happly⟩ |
          ⟨hone, g, next, hg, happly, hne, hfile, hstate⟩
        · rw [hnone]
          refine .of_eq (.failed rfl hlive e ?_) hfile hstate
          rintro ⟨hreadable, hwritable⟩ g changes' next hg hasks' happly
          obtain rfl := hsame hg
          obtain rfl := Option.some.inj (hasks.symm.trans hasks')
          exact hwhy hreadable hwritable g next hg happly
        · rw [hnone]
          obtain rfl := hsame hg
          exact .of_eq (.kept rfl hlive hg hasks happly) hfile hstate
        · rw [hone]
          obtain rfl := hsame hg
          exact .of_eq (.written rfl hlive hg hasks happly hne) hfile hstate

/-- A stage that looks at no file. -/
theorem runStage_none (path : Bytes) {stage : Stage} {files : FileSet} {b : Progress Memory}
    (hfiles : files.files stage.rule.kind = []) :
    (runStage (Memory.store.refusing unreadable unwritable) files stage b).2.view path = b.view path ∧
      written (Memory.store.refusing unreadable unwritable) files stage b = [] := by
  unfold runStage Batch.drain written
  rw [hfiles, List.foldl_nil]
  dsimp only
  rw [Batch.flush_empty]
  exact ⟨rfl, rfl⟩

/-- A stage looks at a file. -/
def looks (disabled : List String) (files : FileSet) (path : Bytes) (stage : Stage) : Bool :=
  !disabled.contains stage.rule.id && (files.files stage.rule.kind).contains path

/-- One stage over all files, seen from one of them. -/
theorem passed_step {disabled : List String} {files : FileSet} (hd : files.Distinct) {stage : Stage}
    {p : Progress Memory} (path : Bytes)
    (hun : (passed (Memory.store.refusing unreadable unwritable) disabled files stage p).cancelled = false) :
    FileStep (unreadable path = none ∧ unwritable path = none) path stage (looks disabled files path stage)
      (p.view path) ((passed (Memory.store.refusing unreadable unwritable) disabled files stage p).view path)
      ((writtenBy (Memory.store.refusing unreadable unwritable) disabled files stage p).filter (·.1 = path)) := by
  have hs := Memory.separable.refusing unreadable unwritable
  have hstart : Agree (fun path (m : Memory) => m.file? path) path p { p with batch := p.batch.only path } :=
    ⟨rfl, rfl, rfl, rfl⟩
  obtain ⟨hagree, hwrites⟩ := passed_agree hs hun hstart
  rw [hwrites]
  refine FileStep.of_eq (u := Progress.view path (passed _ disabled (files.only path) stage
    { p with batch := p.batch.only path })) ?_ hagree.file hagree.state
  have hun' := hagree.cancelled.symm.trans hun
  unfold passed at hun'
  unfold passed writtenBy looks
  cases hdis : disabled.contains stage.rule.id with
  | true => exact .unseen rfl
  | false =>
    rw [hdis] at hun'
    simp only [Bool.false_eq_true, if_false, Bool.not_false, Bool.true_and]
    rcases hd.files_only path stage.rule.kind with ⟨hmem, hfiles⟩ | ⟨hmem, hfiles⟩
    · obtain ⟨hview, hnone⟩ := runStage_none path hfiles
      rw [hnone]
      exact .of_eq (.unseen (by simpa using hmem)) (congrArg FileView.file hview) (congrArg FileView.state hview)
    · have hlooks : (files.files stage.rule.kind).contains path = true := by simpa using hmem
      rw [hlooks]
      exact runStage_single hfiles hun'

end Memory

/-- What the stages of a run wrote, one after another. -/
abbrev History := List (Stage × List (Bytes × Nat))

/-- The stages that wrote one file, with the number of their edits. -/
def History.of (path : Bytes) (h : History) : List (Stage × Nat) :=
  h.flatMap fun x => (x.2.filter (·.1 = path)).map fun write => (x.1, write.2)

/-- A file goes through the stages of a history. -/
inductive FileRun (free : Prop) (looks : Stage → Bool) (path : Bytes) : History → FileView → FileView → Prop
  | nil (v : FileView) : FileRun free looks path [] v v
  | cons {stage : Stage} {writes : List (Bytes × Nat)} {rest : History} {u v w : FileView}
      (step : FileStep free path stage (looks stage) u v (writes.filter (·.1 = path)))
      (run : FileRun free looks path rest v w) : FileRun free looks path ((stage, writes) :: rest) u w

section Memory

variable {unreadable unwritable : Bytes → Option Fault}

/-- The stages of a run, seen from every file. -/
theorem runStages_history {disabled : List String} {files : FileSet} (hd : files.Distinct) {version : Version}
    (stages : List Stage) {p : Progress Memory}
    (hun : (runStages (Memory.store.refusing unreadable unwritable) disabled files version stages
      p).progress.cancelled = false) :
    ∃ h : History, h.map Prod.fst = stages ∧
      (runStages (Memory.store.refusing unreadable unwritable) disabled files version stages p).stages =
        h.map (fun x => x.1.report (disabled.contains x.1.rule.id) x.2) ∧
      (∀ x ∈ h, disabled.contains x.1.rule.id → x.2 = []) ∧
      ∀ path, FileRun (unreadable path = none ∧ unwritable path = none) (looks disabled files path) path h
        (p.view path) ((runStages (Memory.store.refusing unreadable unwritable) disabled files version stages
          p).progress.view path) := by
  induction stages generalizing p with
  | nil => exact ⟨[], rfl, rfl, by simp, fun path => .nil _⟩
  | cons stage rest ih =>
    obtain ⟨log, hnext, hresults⟩ := runStages_cons (Memory.store.refusing unreadable unwritable)
      disabled files version stage rest (runStages_cancelled hun)
    rw [hnext] at hun ⊢
    rw [hresults]
    have hpassed := runStages_cancelled hun
    obtain ⟨h, hstages, hreports, hidle, hruns⟩ := ih hun
    refine ⟨(stage, writtenBy (Memory.store.refusing unreadable unwritable) disabled files stage p) :: h, ?_⟩
    refine ⟨?_, ?_, ?_, ?_⟩
    · rw [List.map_cons, hstages]
    · rw [List.map_cons, hreports]
    · intro x hx hdis
      rcases List.mem_cons.mp hx with rfl | hx
      · exact if_pos hdis
      · exact hidle x hx hdis
    · intro path
      exact .cons (passed_step hd path hpassed) (hruns path)

end Memory

theorem FileRun.eq_of_failure {free : Prop} {looks : Stage → Bool} {path : Bytes} {h : History} {v v' : FileView}
    (run : FileRun free looks path h v v') {st : FileState} (hst : v.state = some st)
    (hfailure : st.failure.isSome) : v' = v := by
  induction run with
  | nil => rfl
  | cons step _ ih =>
    have hsame := step.eq_of_failure hst hfailure
    exact (ih (hsame ▸ hst)).trans hsame

/-- A stage reports a file once. -/
theorem FileRun.nodup {h : History} (hruns : ∀ path, ∃ free looks v v', FileRun free looks path h v v') :
    ∀ x ∈ h, (x.2.map Prod.fst).Nodup := by
  induction h with
  | nil => simp
  | cons x h ih =>
    intro y hy
    rcases List.mem_cons.mp hy with rfl | hy
    · rw [List.nodup_iff_count_le_one]
      intro path
      obtain ⟨_, _, v, v', hrun⟩ := hruns path
      cases hrun with
      | cons step _ =>
        have hle := step.length_le
        rw [← List.countP_eq_length_filter] at hle
        rw [List.count, List.countP_map, ← List.countP_congr (p := (·.1 = path)) (by simp)]
        exact hle
    · refine ih (fun path => ?_) y hy
      obtain ⟨_, _, v, v', hrun⟩ := hruns path
      cases hrun with
      | cons _ run => exact ⟨_, _, _, _, run⟩

/-- A run goes on where its first stages left it. -/
theorem runStages_append {σ : Type} (store : Store σ) (disabled : List String) (files : FileSet)
    (version : Version) (first rest : List Stage) (p : Progress σ) :
    (runStages store disabled files version (first ++ rest) p).progress =
      (runStages store disabled files version rest
        (runStages store disabled files version first p).progress).progress := by
  induction first generalizing p with
  | nil => rfl
  | cons stage first ih =>
    rw [List.cons_append, runStages, runStages]
    by_cases hp : p.cancelled
    · rw [if_pos hp, if_pos hp]
      cases rest with
      | nil => rfl
      | cons stage rest => rw [runStages, if_pos hp]
    · rw [if_neg hp, if_neg hp]
      dsimp only
      split
      · exact ih _
      · exact ih _

/-- One more stage of a run, seen from one file. -/
theorem runStages_snoc {unreadable unwritable : Bytes → Option Fault} {disabled : List String} {files : FileSet}
    (hd : files.Distinct) (version : Version) {before : List Stage} {stage : Stage} {p : Progress Memory}
    (hun : (runStages (Memory.store.refusing unreadable unwritable) disabled files version (before ++ [stage])
      p).progress.cancelled = false) (path : Bytes) :
    ∃ writes, FileStep (unreadable path = none ∧ unwritable path = none) path stage (looks disabled files path stage)
      ((runStages (Memory.store.refusing unreadable unwritable) disabled files version before p).progress.view path)
      ((runStages (Memory.store.refusing unreadable unwritable) disabled files version (before ++ [stage])
        p).progress.view path) writes := by
  rw [runStages_append] at hun ⊢
  have hbefore := runStages_cancelled hun
  obtain ⟨log, hnext, -⟩ := runStages_cons (Memory.store.refusing unreadable unwritable) disabled files version stage []
    hbefore
  rw [hnext] at hun ⊢
  exact ⟨_, passed_step hd path hun⟩

/-- A file that is not given up in the end has not been given up before. -/
theorem live_of_runStages_append {unreadable unwritable : Bytes → Option Fault} {disabled : List String}
    {files : FileSet} (hd : files.Distinct) (version : Version) {before after : List Stage} {p : Progress Memory}
    (hun : (runStages (Memory.store.refusing unreadable unwritable) disabled files version (before ++ after)
      p).progress.cancelled = false) {path : Bytes}
    (hlive : ∀ st, (runStages (Memory.store.refusing unreadable unwritable) disabled files version (before ++ after)
      p).progress.states.at? path = some st → st.failure = none) :
    ∀ st, (runStages (Memory.store.refusing unreadable unwritable) disabled files version before
      p).progress.states.at? path = some st → st.failure = none := by
  intro st hst
  rw [runStages_append] at hun hlive
  obtain ⟨history, -, -, -, hruns⟩ := runStages_history hd after hun
  by_contra hne
  have hsame := (hruns path).eq_of_failure hst (Option.isSome_iff_ne_none.mpr hne)
  exact hne (hlive st ((congrArg FileView.state hsame).trans hst))

end Migration

end Codemod
