import Codemod.Proofs.Migration.Idle
import Codemod.Proofs.Release12.PickerStep

namespace Codemod

open Edit Markup Workspace

namespace Migration

theorem Stage.quiet_of_edits?_nil {stage : Stage} {path content : Bytes}
    (h : stage.edits? path content false = some []) : stage.quiet path content = true :=
  quiet_iff.mpr ⟨[], h, applyChanges_nil content⟩

section File

variable {free : Prop} {looks : Stage → Bool} {path : Bytes} {stage : Stage} {v u w : FileView}

theorem FileRun.of_append {a b : History} (run : FileRun free looks path (a ++ b) v w) :
    ∃ u, FileRun free looks path a v u ∧ FileRun free looks path b u w := by
  induction a generalizing v with
  | nil => exact ⟨v, .nil v, run⟩
  | cons x a ih =>
    cases run with
    | cons step run =>
      obtain ⟨u, ha, hb⟩ := ih run
      exact ⟨u, .cons step ha, hb⟩

/-- A store that refuses nothing lets a stage write the edited file. -/
theorem FileStep.eq_written {looks : Bool} {writes : List (Bytes × Nat)}
    (h : FileStep free path stage looks v u writes) (hfree : free) (hv : v.Fresh) (hlooks : looks = true)
    {f : MemoryFile} {changes : List Change} {next : Bytes} (hf : v.file = some f)
    (hasks : stage.edits? path f.content false = some changes) (happly : applyChanges f.content changes = .ok next)
    (hne : f.content ≠ next) :
    u = ⟨some (f.rewritten next), some ((v.current path stage.rule.kind).advance stage changes.length)⟩ := by
  obtain ⟨htouched, hfailure⟩ := hv.current path stage.rule.kind
  have hsame {g : MemoryFile} (hg : v.file = some g) : g = f := Option.some.inj (hg.symm.trans hf)
  cases h with
  | unseen seen =>
    rw [seen] at hlooks
    cases hlooks
  | passedOver _ dead =>
    rw [hfailure] at dead
    cases dead
  | kept _ _ before asks apply =>
    obtain rfl := hsame before
    rw [htouched] at asks
    obtain rfl := Option.some.inj (hasks.symm.trans (by simpa using asks))
    exact absurd (Except.ok.inj (apply.symm.trans happly)) hne
  | failed _ _ e why =>
    rw [htouched] at why
    exact absurd happly (why hfree f changes next hf (by simpa using hasks))
  | written _ _ before asks apply =>
    obtain rfl := hsame before
    rw [htouched] at asks
    obtain rfl := Option.some.inj (hasks.symm.trans (by simpa using asks))
    obtain rfl := Except.ok.inj (apply.symm.trans happly)
    rfl

end File

end Migration

namespace Release12

open Migration

theorem cancels_eq_false : ∀ stage ∈ migration.stages, ∀ c, (stage.rule.apply c).cancels = false := by
  intro stage hstage c
  have hrule : ∃ id name description kind edits, stage.rule = .pure id name description kind edits := by
    simp only [migration, draft, stages, families, editors, familyStages, List.flatMap_cons, List.flatMap_nil,
      List.map_cons, List.map_nil, List.cons_append, List.nil_append, List.mem_cons, List.not_mem_nil,
      or_false] at hstage
    rcases hstage with rfl | rfl | rfl | rfl | rfl | rfl | rfl | rfl | rfl | rfl | rfl | rfl | rfl | rfl <;>
      exact ⟨_, _, _, _, _, rfl⟩
  obtain ⟨id, name, description, kind, edits, hrule⟩ := hrule
  rw [hrule]
  rfl

theorem run_uncancelled {σ : Type} (store : Store σ) (disabled : List String) (files : FileSet) (tree : σ) :
    (run store disabled files migration false tree).cancelled = false :=
  runStages_uncancelled disabled files migration.version cancels_eq_false rfl

theorem looks_templates {templates : List Bytes} {path : Bytes} {stage : Stage} :
    looks [] ⟨templates, [], []⟩ path stage = true ↔ stage.rule.kind = .template ∧ path ∈ templates := by
  have hsort (texts : List Bytes) : path ∈ Bytes.sort texts ↔ path ∈ texts := (List.mergeSort_perm ..).mem_iff
  unfold looks FileSet.files
  cases stage.rule.kind <;> simp [hsort]

/-- A second run is idle just when every rule is quiet about every template as the first run left it. -/
theorem rerun_idle_iff (tree : Memory) (templates : List Bytes) (hd : templates.Nodup) :
    let files : FileSet := ⟨templates, [], []⟩
    let first := run Memory.store [] files migration false tree
    (run Memory.store [] files migration false first.tree).Idle first.tree ↔
      ∀ stage ∈ migration.stages, stage.rule.kind = .template → ∀ path ∈ templates,
        ∃ f, first.tree.file? path = some f ∧ stage.quiet path f.content = true := by
  dsimp only
  rw [run_idle_iff [] ⟨hd, List.nodup_nil, List.nodup_nil⟩ migration _ (run_uncancelled ..)]
  constructor
  · intro h stage hstage hkind path hpath
    exact h stage hstage path (looks_templates.mpr ⟨hkind, hpath⟩)
  · intro h stage hstage path hlooks
    obtain ⟨hkind, hpath⟩ := looks_templates.mp hlooks
    exact h stage hstage hkind path hpath

/-- What a template stage asks of a content, the rule asks of the document. -/
theorem edits?_eq_some_iff_of_rule {stage : Stage} {r : TemplateRule} (hkind : stage.rule.kind = .template)
    (happly : stage.rule.apply = r.apply) {path content : Bytes} {touched : Bool} {changes : List Change} :
    stage.edits? path content touched = some changes ↔
      ∃ d, Document.parse path content = .ok d ∧ changes = r.edits d touched := by
  unfold Stage.edits?
  dsimp only
  rw [if_pos hkind, happly]
  cases Document.parse path content with
  | error e => simp [Except.toOption]
  | ok d => simp [Except.toOption, TemplateRule.apply, eq_comm]

section Run

variable {templates : List Bytes} {tree : Memory} {path : Bytes}

/-- A run of the release over templates up to some stage. -/
def upTo (templates : List Bytes) (tree : Memory) (before : List Stage) : Outcome Memory :=
  run Memory.store [] ⟨templates, [], []⟩ { migration with stages := before } false tree

/-- A template on its way through such a run. -/
def viewAfter (templates : List Bytes) (tree : Memory) (before : List Stage) (path : Bytes) : FileView :=
  ⟨(upTo templates tree before).tree.file? path, (upTo templates tree before).result.file? path⟩

/-- Whatever a rule finds in a template, what it writes into that is read as it is meant. -/
def ReadPlainly (templates : List Bytes) (tree : Memory) (path : Bytes) : Prop :=
  ∀ before stage after, migration.stages = before ++ stage :: after → ∀ r ∈ templateRules, stage.rule.apply = r.apply →
    ∀ f d, (viewAfter templates tree before path).file = some f → Document.parse path f.content = .ok d → r.Plain d

/-- The file holds a template in which the rules have nothing left to do. -/
def Migrated (path : Bytes) (file : Option MemoryFile) (rules : List TemplateRule) : Prop :=
  ∃ f d s, file = some f ∧ Document.parse path f.content = .ok d ∧ Reading d s ∧ ∀ r ∈ rules, r.Done s

theorem front_uncancelled {front back : List Stage} (files : FileSet) (tree : Memory)
    (hstages : migration.stages = front ++ back) : (runStages (Memory.store.refusing (fun _ => none) fun _ => none) [] files migration.version front
      ⟨tree, [], .empty, false, []⟩).progress.cancelled = false :=
  runStages_uncancelled [] _ _ (fun stage hstage => cancels_eq_false stage (by simp [hstages, hstage])) rfl

/-- One more stage, seen from one file. -/
theorem upTo_step (tree : Memory) (path : Bytes) (hd : templates.Nodup) {before after : List Stage} {stage : Stage}
    (hstages : migration.stages = before ++ stage :: after) :
    ∃ free writes, FileStep free path stage (looks [] ⟨templates, [], []⟩ path stage)
      (viewAfter templates tree before path) (viewAfter templates tree (before ++ [stage]) path) writes := by
  have hsplit : migration.stages = (before ++ [stage]) ++ after := by rw [hstages]; simp
  have hun := front_uncancelled ⟨templates, [], []⟩ tree hsplit
  exact ⟨_, runStages_snoc ⟨hd, List.nodup_nil, List.nodup_nil⟩ migration.version hun path⟩

theorem live_upTo (hd : templates.Nodup) {before after : List Stage} (hstages : migration.stages = before ++ after)
    (hlive : ∀ st, (viewAfter templates tree migration.stages path).state = some st → st.failure = none) :
    ∀ st, (viewAfter templates tree before path).state = some st → st.failure = none := by
  have hun := run_uncancelled (Memory.store.refusing (fun _ => none) fun _ => none) [] ⟨templates, [], []⟩ tree
  unfold run at hun
  rw [hstages] at hun hlive
  exact live_of_runStages_append ⟨hd, List.nodup_nil, List.nodup_nil⟩ migration.version hun hlive

/-- The next template rule leaves a migrated template one that is migrated by it too. -/
theorem Migrated.next (hd : templates.Nodup) (hpath : path ∈ templates) (hplain : ReadPlainly templates tree path)
    {before after : List Stage} {stage : Stage} (hstages : migration.stages = before ++ stage :: after)
    (hlive : ∀ st, (viewAfter templates tree (before ++ [stage]) path).state = some st → st.failure = none)
    (hkind : stage.rule.kind = .template) {r : TemplateRule} (happly : stage.rule.apply = r.apply)
    {done rest : List TemplateRule} (hrules : templateRules = done ++ r :: rest)
    (h : Migrated path (viewAfter templates tree before path).file done) :
    Migrated path (viewAfter templates tree (before ++ [stage]) path).file (done ++ [r]) := by
  obtain ⟨f, d, s, hf, hparse, hs, hdone⟩ := h
  obtain ⟨free, writes, hstep⟩ := upTo_step tree path hd hstages
  rw [looks_templates.mpr ⟨hkind, hpath⟩] at hstep
  obtain ⟨f', g, touched, changes, hf', hg, hasks, hchanges⟩ := hstep.exists_applied hlive
  obtain rfl : f' = f := Option.some.inj (hf'.symm.trans hf)
  obtain ⟨d', hparse', rfl⟩ := (edits?_eq_some_iff_of_rule hkind happly).mp hasks
  obtain rfl : d' = d := Except.ok.inj (hparse'.symm.trans hparse)
  have hcontent : d'.content = f'.content := by
    obtain ⟨-, -, hcontent⟩ := exists_reading hparse
    exact hcontent
  obtain ⟨s', hedited, hwell, hdone'⟩ := TemplateRule.exists_done hrules hs touched
    (hplain before stage after hstages r (by simp [hrules]) happly f' d' hf' hparse) hdone
  rw [hcontent, hchanges] at hedited
  have hparsed := hwell.parse_render path
  rw [← Except.ok.inj hedited] at hparsed
  exact ⟨g, _, s', hg, hparsed, ⟨hwell, (Except.ok.inj hedited).symm, rfl⟩, hdone'⟩

/-- Through the stages that are left, a template comes to have nothing left to do for any rule. -/
theorem migrated_of_stages (hd : templates.Nodup) (hpath : path ∈ templates)
    (hplain : ReadPlainly templates tree path)
    (hlive : ∀ st, (viewAfter templates tree migration.stages path).state = some st → st.failure = none)
    (todo : List Stage) {before : List Stage} (hstages : migration.stages = before ++ todo)
    {done rest : List TemplateRule} (hrules : templateRules = done ++ rest)
    (hrest : (todo.filter (·.rule.kind = .template)).map (·.rule.apply) = rest.map TemplateRule.apply)
    (h : Migrated path (viewAfter templates tree before path).file done) :
    Migrated path (viewAfter templates tree migration.stages path).file templateRules := by
  induction todo generalizing before done rest with
  | nil =>
    obtain rfl : rest = [] := List.map_eq_nil_iff.mp hrest.symm
    rw [hrules, hstages, List.append_nil, List.append_nil]
    exact h
  | cons stage todo ih =>
    have hstages' : migration.stages = (before ++ [stage]) ++ todo := by rw [hstages]; simp
    by_cases hkind : stage.rule.kind = .template
    · rw [List.filter_cons_of_pos (by simpa using hkind), List.map_cons] at hrest
      obtain ⟨r, rest, rfl, hr, hrest⟩ := List.map_eq_cons_iff.mp hrest.symm
      have hrules' : templateRules = (done ++ [r]) ++ rest := by rw [hrules]; simp
      refine ih hstages' hrules' hrest.symm ?_
      exact h.next hd hpath hplain hstages (live_upTo hd hstages' hlive) hkind hr.symm hrules
    · rw [List.filter_cons_of_neg (by simpa using hkind)] at hrest
      refine ih hstages' hrules hrest ?_
      obtain ⟨free, writes, hstep⟩ := upTo_step tree path hd hstages
      have hunseen : looks [] ⟨templates, [], []⟩ path stage = false := by
        rw [Bool.eq_false_iff]
        exact fun hlooks => hkind (looks_templates.mp hlooks).1
      rw [hunseen] at hstep
      rwa [FileStep.eq_of_unseen hstep]

/-- A template that no stage gave up is a template that the first rule could be asked about. -/
theorem migrated_start (hd : templates.Nodup) (hpath : path ∈ templates)
    (hlive : ∀ st, (viewAfter templates tree migration.stages path).state = some st → st.failure = none) :
    Migrated path (viewAfter templates tree [] path).file [] := by
  obtain ⟨after, hstages⟩ : ∃ after, migration.stages = [] ++ alignmentStage :: after := ⟨_, rfl⟩
  have hstages' : migration.stages = [alignmentStage] ++ after := hstages
  obtain ⟨free, writes, hstep⟩ := upTo_step tree path hd hstages
  rw [looks_templates.mpr ⟨rfl, hpath⟩] at hstep
  obtain ⟨f, g, touched, changes, hf, -, hasks, -⟩ := hstep.exists_applied (live_upTo hd hstages' hlive)
  obtain ⟨d, hparse, -⟩ := (edits?_eq_some_iff_of_rule (r := .alignment) rfl rfl).mp hasks
  obtain ⟨s, hs, -⟩ := exists_reading hparse
  exact ⟨f, d, s, hf, hparse, hs, by simp⟩

end Run

section Once

variable {path given next : Bytes} {before after : List Stage} {stage : Stage}

/-- A template that only one stage has something to do in. -/
structure EditedOnce (path given next : Bytes) (before after : List Stage) (stage : Stage) : Prop where
  stages : migration.stages = before ++ stage :: after
  kind : stage.rule.kind = .template
  ungrouped : stage.group.isEmpty = true
  before : ∀ q ∈ before, q.rule.kind = .template → q.edits? path given false = some []
  edits : ∃ changes, stage.edits? path given false = some changes ∧ applyChanges given changes = .ok next
  changed : given ≠ next
  after : ∀ q ∈ after, q.rule.kind = .template → q.edits? path next false = some []

theorem EditedOnce.fileRun (h : EditedOnce path given next before after stage) {free : Prop} (hfree : free)
    {history : History} {v : FileView} (hstages : history.map Prod.fst = migration.stages)
    (run : FileRun free (looks [] ⟨[path], [], []⟩ path) path history ⟨some ⟨path, given, 0⟩, none⟩ v) :
    v.file = some ⟨path, next, 1⟩ ∧ v.Fresh := by
  rw [h.stages] at hstages
  obtain ⟨front, rest, rfl, hfront, hrest⟩ := List.map_eq_append_iff.mp hstages
  obtain ⟨⟨stage, writes⟩, back, rfl, rfl, hback⟩ := List.map_eq_cons_iff.mp hrest
  obtain ⟨changes, hasks, happly⟩ := h.edits
  obtain ⟨u, runFront, runRest⟩ := run.of_append
  have hstart : FileView.Fresh ⟨some ⟨path, given, 0⟩, none⟩ := by rintro st ⟨⟩
  obtain ⟨hu, hufresh⟩ := runFront.file_of_settled hfree hstart fun x hx hlooks =>
    ⟨_, rfl, Stage.quiet_of_edits?_nil
      (h.before x.1 (hfront ▸ List.mem_map_of_mem hx) (looks_templates.mp hlooks).1)⟩
  cases runRest with
  | @cons _ _ _ _ w _ step runBack =>
    have hw := step.eq_written hfree hufresh (looks_templates.mpr ⟨h.kind, by simp⟩) hu hasks happly h.changed
    have hwfresh : w.Fresh := by
      obtain ⟨htouched, hfailure⟩ := hufresh.current path stage.rule.kind
      rw [hw]
      rintro st ⟨⟩
      rw [FileState.advance, if_pos (by rw [h.ungrouped, Bool.true_or])]
      exact ⟨htouched, hfailure⟩
    have hwfile : w.file = some ⟨path, next, 1⟩ := by rw [hw]; rfl
    obtain ⟨hv, hvfresh⟩ := runBack.file_of_settled hfree hwfresh fun x hx hlooks =>
      ⟨_, hwfile, Stage.quiet_of_edits?_nil
        (h.after x.1 (hback ▸ List.mem_map_of_mem hx) (looks_templates.mp hlooks).1)⟩
    exact ⟨hv.trans hwfile, hvfresh⟩

/-- A first run over such a template edits it and fails nothing. -/
theorem EditedOnce.file_run (h : EditedOnce path given next before after stage) :
    let first := run Memory.store [] ⟨[path], [], []⟩ migration false (Memory.ofFiles [(path, given)])
    first.tree.file? path = some ⟨path, next, 1⟩ ∧ first.result.failed = [] := by
  intro first
  have hfirst : first = run (Memory.store.refusing (fun _ => none) (fun _ => none)) [] ⟨[path], [], []⟩ migration false
    (Memory.ofFiles [(path, given)]) := rfl
  have hdistinct : FileSet.Distinct ⟨[path], [], []⟩ := ⟨List.nodup_singleton path, List.nodup_nil, List.nodup_nil⟩
  have hun := run_uncancelled (Memory.store.refusing (fun _ => none) (fun _ => none)) [] ⟨[path], [], []⟩
    (Memory.ofFiles [(path, given)])
  obtain ⟨history, hstages, -, -, hruns⟩ := runStages_history hdistinct migration.stages hun
  have hgiven : (Memory.ofFiles [(path, given)]).file? path = some ⟨path, given, 0⟩ := by simp [Memory.ofFiles, Memory.file?]
  have hrun := hruns path
  unfold Progress.view at hrun
  rw [hgiven] at hrun
  obtain ⟨hfile, hfresh⟩ := h.fileRun ⟨rfl, rfl⟩ hstages hrun
  have hstart : Sums [] 0 := ⟨List.nodup_nil, rfl⟩
  have hsums := hstart.runStages (Memory.store.refusing (fun _ => none) (fun _ => none))
    (p := ⟨Memory.ofFiles [(path, given)], [], .empty, false, []⟩) [] ⟨[path], [], []⟩ migration.version
    migration.stages
  rw [hfirst]
  refine ⟨hfile, (Result.failed_eq_nil_iff _).mpr fun st hst => ?_⟩
  have hat := hsums.at?_of_mem hst
  by_cases hpath : st.path = path
  · rw [hpath] at hat
    exact (hfresh st hat).2
  · have hnone : FileView.Fresh ⟨(Memory.ofFiles [(path, given)]).file? st.path, none⟩ := by rintro st ⟨⟩
    obtain ⟨-, hother⟩ := (hruns st.path).file_of_settled ⟨rfl, rfl⟩ hnone fun x _ hlooks =>
      absurd (looks_templates.mp hlooks).2 (by simpa using hpath)
    exact (hother st hat).2

/-- Before that stage the template is as it was given. -/
theorem EditedOnce.file_viewAfter (h : EditedOnce path given next before after stage) {front back : List Stage}
    (hfront : before = front ++ back) :
    (viewAfter [path] (Memory.ofFiles [(path, given)]) front path).file = some ⟨path, given, 0⟩ := by
  have hsplit : migration.stages = front ++ (back ++ stage :: after) := by rw [h.stages, hfront]; simp
  have hun := front_uncancelled ⟨[path], [], []⟩ (Memory.ofFiles [(path, given)]) hsplit
  have hdistinct : FileSet.Distinct ⟨[path], [], []⟩ := ⟨List.nodup_singleton path, List.nodup_nil, List.nodup_nil⟩
  obtain ⟨history, hstages, -, -, hruns⟩ := runStages_history hdistinct front hun
  have hgiven : (Memory.ofFiles [(path, given)]).file? path = some ⟨path, given, 0⟩ := by simp [Memory.ofFiles, Memory.file?]
  have hstart : FileView.Fresh ⟨(Memory.ofFiles [(path, given)]).file? path, none⟩ := by rintro st ⟨⟩
  obtain ⟨hfile, -⟩ := (hruns path).file_of_settled ⟨rfl, rfl⟩ hstart fun x hx hlooks => by
    have hx' : x.1 ∈ before := hfront ▸ List.mem_append_left _ (hstages ▸ List.mem_map_of_mem hx)
    exact ⟨_, hgiven, Stage.quiet_of_edits?_nil (h.before x.1 hx' (looks_templates.mp hlooks).1)⟩
  exact hfile.trans hgiven

end Once

def datePicker : Editor := ⟨"igx-date-picker", "igxDatePickerTemplate", "Date", "date-picker"⟩

def timePicker : Editor := ⟨"igx-time-picker", "igxTimePickerTemplate", "Time", "time-picker"⟩

/-- The stages before those of the pickers. -/
def earlierStages : List Stage := [alignmentStage] ++ families.flatMap familyStages ++ [rowTypeStage]

theorem stages_eq : migration.stages = earlierStages ++ [editorStage datePicker, editorStage timePicker] := rfl

/-- A picker with nothing in it, before and after a first run. -/
def bare : Bytes := "<igx-time-picker></igx-time-picker>"

def furnished : Bytes := "<igx-time-picker mode=\"dialog\">\n<label igxLabel>Time</label></igx-time-picker>"

def furnishing : List Change := [.insert 16 " mode=\"dialog\"", .insert 17 "\n<label igxLabel>Time</label>"]

theorem edits?_bare :
    (∀ stage ∈ earlierStages ++ [editorStage datePicker], stage.rule.kind = .template →
      stage.edits? "a.html" bare false = some []) ∧
      (editorStage timePicker).edits? "a.html" bare false = some furnishing ∧ bare ≠ furnished := by
  unfold bare furnished furnishing
  repeat rw [bytes_ofList]
  decide +kernel

theorem applyChanges_furnishing : applyChanges bare furnishing = .ok furnished := by
  unfold bare furnishing furnished
  repeat rw [bytes_ofList]
  cbv

theorem bare_once :
    EditedOnce "a.html" bare furnished (earlierStages ++ [editorStage datePicker]) [] (editorStage timePicker) where
  stages := by rw [List.append_assoc]; exact stages_eq
  kind := rfl
  ungrouped := rfl
  before := edits?_bare.1
  edits := ⟨_, edits?_bare.2.1, applyChanges_furnishing⟩
  changed := edits?_bare.2.2
  after := by simp

/-- The only element that a rule looks for is the picker. -/
theorem plain_bare {d : Document} (hparse : Document.parse "a.html" bare = .ok d) : ∀ r ∈ templateRules, r.Plain d := by
  have hcheck : (Document.parse "a.html" bare).toOption.any (fun d =>
      (d.find (Element.named [bytes tabs.component])).isEmpty &&
      families.all (fun f => (d.find f.isItem).isEmpty) &&
      (d.find (Element.named [bytes datePicker.component])).isEmpty &&
      d.places.all (fun place => editors.all fun editor => !needsWarning editor d place) &&
      (d.find (Element.named [bytes timePicker.component])).all (fun e =>
        !hasProjectedLabel e && (pickerTag d e).head? = some 60 &&
          ((pickerTag d e).drop 1).head?.any Bytes.isLetter &&
          TagState.name.finish ((pickerTag d e).drop 1) = some (false, []) &&
          startTagName (pickerTag d e) = e.name &&
          (Element.ofTag (pickerTag d e)).keys = pickerKeys e &&
          (projectedOpening (e.attribute? (attributeNames "labelVisibility")) = bytes "<label igxLabel>") &&
          (e.attributes (attributeNames "label")).isEmpty &&
          !(d.text e.startTag).contains "<!--")) = true := by
    unfold bare
    repeat rw [bytes_ofList]
    decide +kernel
  rw [hparse] at hcheck
  simp only [Except.toOption, Option.any_some, Bool.and_eq_true, List.isEmpty_iff, List.all_eq_true] at hcheck
  obtain ⟨⟨⟨⟨htabs, hfamilies⟩, hdate⟩, hneeds⟩, htime⟩ := hcheck
  have halone : ∀ editor ∈ editors, WarnsAlone editor d := by
    intro editor heditor place hplace hwarns
    have hnot := hneeds place hplace editor heditor
    rw [hwarns] at hnot
    cases hnot
  have hpicker : ∀ e ∈ d.find (Element.named [bytes timePicker.component]), PlainPicker d e := by
    intro e he
    have hchecks := htime e he
    simp only [decide_eq_true_eq, Bool.not_eq_true'] at hchecks
    obtain ⟨⟨⟨⟨⟨⟨⟨⟨hlabel, hhead⟩, hletter⟩, hfinish⟩, hname⟩, hkeys⟩, hopening⟩, hlabels⟩, hcomment⟩ := hchecks
    refine ⟨?_, hkeys, fun _ => ?_, fun _ => by simp [hlabels], fun h => ?_⟩
    · rw [hlabel]
      exact ⟨⟨hhead, hletter, hfinish⟩, hname⟩
    · rw [hopening]
      exact ⟨⟨by decide, by decide, by decide +kernel⟩, by decide +kernel⟩
    · rw [(contains_iff ..).mpr h] at hcomment
      cases hcomment
  rintro (_ | f | f | f | f | editor) hr
  · simp [TemplateRule.Plain, htabs]
  · trivial
  · have hf : f ∈ families := mem_templateRules.mp hr
    simp [TemplateRule.Plain, hfamilies f hf]
  · have hf : f ∈ families := mem_templateRules.mp hr
    simp [TemplateRule.Plain, hfamilies f hf]
  · trivial
  · have heditor : editor ∈ editors := mem_templateRules.mp hr
    have hone : editor = datePicker ∨ editor = timePicker := by simpa [editors, datePicker, timePicker] using heditor
    refine ⟨?_, halone editor heditor⟩
    rcases hone with rfl | rfl
    · simp [hdate]
    · exact hpicker

/-- Where all that a first run writes is read as it is meant, a second run has nothing to do. -/
theorem rerun_idle (tree : Memory) (templates : List Bytes) (hd : templates.Nodup) :
    let files : FileSet := ⟨templates, [], []⟩
    let first := run Memory.store [] files migration false tree
    let second := run Memory.store [] files migration false first.tree
    (second.Idle first.tree ↔ ∀ stage ∈ migration.stages, stage.rule.kind = .template → ∀ path ∈ templates,
        ∃ f, first.tree.file? path = some f ∧ stage.quiet path f.content = true) ∧
      (first.result.failed = [] → (∀ path ∈ templates, ReadPlainly templates tree path) →
        second.Idle first.tree) := by
  dsimp only
  refine ⟨rerun_idle_iff tree templates hd, fun hfailed hplain => (rerun_idle_iff tree templates hd).mpr ?_⟩
  intro stage hstage hkind path hpath
  have hlive : ∀ st, (viewAfter templates tree migration.stages path).state = some st → st.failure = none :=
    fun st hst => (Result.failed_eq_nil_iff _).mp hfailed st (List.mem_of_find?_eq_some hst)
  obtain ⟨f, d, s, hf, hparse, hs, hdone⟩ := migrated_of_stages hd hpath (hplain path hpath) hlive migration.stages
    (List.nil_append _).symm (List.nil_append _).symm templateRules_apply (migrated_start hd hpath hlive)
  obtain ⟨r, hr, happly⟩ := exists_templateRule hstage hkind
  refine ⟨f, hf, Stage.quiet_of_edits?_nil ((edits?_eq_some_iff_of_rule hkind happly).mpr ⟨d, hparse, ?_⟩)⟩
  exact ((hdone r hr).edits_eq_nil hs).symm

/-- Both runs find a picker that they understand: the first run furnishes it. -/
theorem rerun_idle_bare :
    let first := run Memory.store [] ⟨["a.html"], [], []⟩ migration false (Memory.ofFiles [("a.html", bare)])
    first.tree.file? "a.html" = some ⟨"a.html", furnished, 1⟩ ∧ first.result.failed = [] ∧
      (∀ path ∈ [bytes "a.html"], ReadPlainly ["a.html"] (Memory.ofFiles [("a.html", bare)]) path) ∧
      (run Memory.store [] ⟨["a.html"], [], []⟩ migration false first.tree).Idle first.tree := by
  intro first
  obtain ⟨hfile, hfailed⟩ := bare_once.file_run
  have hplain : ∀ path ∈ [bytes "a.html"], ReadPlainly ["a.html"] (Memory.ofFiles [("a.html", bare)]) path := by
    intro path hpath before stage after hstages r hr _ f d hf hparse
    obtain rfl := List.mem_singleton.mp hpath
    -- the stage of the picker is the last one
    have hback := congrArg List.dropLast (bare_once.stages.symm.trans hstages)
    rw [List.dropLast_concat, List.dropLast_append_cons] at hback
    obtain rfl := Option.some.inj (hf.symm.trans (bare_once.file_viewAfter hback))
    exact plain_bare hparse r hr
  exact ⟨hfile, hfailed, hplain, (rerun_idle _ ["a.html"] (by decide)).2 hfailed hplain⟩

/-- A picker with another one in its label, before and after a first run. -/
def labelled : Bytes := "<igx-date-picker mode=\"dialog\" label=\"<igx-date-picker/>\"></igx-date-picker>"

def projected : Bytes :=
  "<igx-date-picker mode=\"dialog\">\n<label igxLabel><igx-date-picker/></label></igx-date-picker>"

/-- The label becomes content of the outer picker. -/
def projection : List Change := [.delete 30 " label=\"<igx-date-picker/>\"", .insert 58 "\n<label igxLabel><igx-date-picker/></label>"]

/-- What the stages ask for, before the first of them and after that of the date picker. -/
theorem edits?_labelled :
    (∀ stage ∈ earlierStages, stage.rule.kind = .template → stage.edits? "a.html" labelled false = some []) ∧
      (editorStage datePicker).edits? "a.html" labelled false = some projection ∧
      (editorStage timePicker).edits? "a.html" projected false = some [] ∧
      (editorStage datePicker).edits? "a.html" projected false =
        some [.insert 64 " mode=\"dialog\"", .replace 64 "/>" ">\n<label igxLabel>Date</label></igx-date-picker>"] ∧
      labelled ≠ projected := by
  unfold labelled projected projection
  repeat rw [bytes_ofList]
  decide +kernel

theorem applyChanges_projection : applyChanges labelled projection = .ok projected := by
  unfold labelled projection projected
  repeat rw [bytes_ofList]
  cbv

/-- What was the text of a label is a picker of its own now. -/
theorem datePicker_projected : (editorStage datePicker).quiet "a.html" projected = false := by
  rw [Stage.quiet, edits?_labelled.2.2.2.1, Option.bind_some]
  unfold projected
  repeat rw [bytes_ofList]
  cbv

theorem labelled_once :
    EditedOnce "a.html" labelled projected earlierStages [editorStage timePicker] (editorStage datePicker) where
  stages := stages_eq
  kind := rfl
  ungrouped := rfl
  before := edits?_labelled.1
  edits := ⟨_, edits?_labelled.2.1, applyChanges_projection⟩
  changed := edits?_labelled.2.2.2.2
  after := fun q hq _ => by rw [List.mem_singleton.mp hq]; exact edits?_labelled.2.2.1

/-- A second run over such a template is not idle. -/
theorem rerun_labelled :
    let first := run Memory.store [] ⟨["a.html"], [], []⟩ migration false (Memory.ofFiles [("a.html", labelled)])
    first.cancelled = false ∧ first.result.failed = [] ∧
      ¬(run Memory.store [] ⟨["a.html"], [], []⟩ migration false first.tree).Idle first.tree := by
  intro first
  obtain ⟨hfile, hfailed⟩ := labelled_once.file_run
  refine ⟨run_uncancelled .., hfailed, fun hidle => ?_⟩
  have hquiet := (run_idle_iff [] ⟨by decide, by decide, by decide⟩ migration _ (run_uncancelled ..)).mp hidle
  have hmem : editorStage datePicker ∈ migration.stages := by simp [migration, draft, stages, editors, datePicker]
  obtain ⟨f, hf, hf'⟩ := hquiet _ hmem "a.html" (looks_templates.mpr ⟨rfl, by simp⟩)
  obtain rfl := Option.some.inj (hf.symm.trans hfile)
  dsimp only at hf'
  rw [datePicker_projected] at hf'
  cases hf'

end Release12

end Codemod
