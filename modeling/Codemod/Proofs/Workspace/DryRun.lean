import Codemod.Proofs.Files.Backup
import Codemod.Proofs.Workspace.Calls

namespace Codemod.Workspace

open Files

/-- What a disk shows of a tracked file. -/
def Tracked.text (t : Tracked) : Bytes × Bytes × Bytes := (t.path, t.first, t.latest)

namespace Disk

def texts (d : Disk) : List (Bytes × Bytes × Bytes) := d.tracked.map Tracked.text

section Texts

variable {d d' : Disk} {file file' : Tracked} {path : Bytes}

theorem file?_text (d : Disk) (path : Bytes) : (d.file? path).map Tracked.text = d.texts.find? (·.1 = path) := by
  unfold texts file?
  rw [List.find?_map]
  rfl

theorem texts_track (d : Disk) (file : Tracked) : (d.track file).texts =
    if (d.texts.find? (·.1 = file.path)).isSome then d.texts.map fun t => if t.1 = file.path then file.text else t
    else d.texts ++ [file.text] := by
  rw [← file?_text, Option.isSome_map]
  unfold track
  split
  · unfold texts
    simp only [List.map_map]
    apply List.map_congr_left
    intro t _
    show (if t.path = file.path then file else t).text = if t.path = file.path then file.text else t.text
    split <;> rfl
  · exact List.map_append

theorem texts_track_congr (h : d.texts = d'.texts) (hfile : file.text = file'.text) :
    (d.track file).texts = (d'.track file').texts := by
  have hpath : file.path = file'.path := congrArg (·.1) hfile
  rw [texts_track, texts_track, h, hfile, hpath]

theorem changedFiles_text (d : Disk) : d.changedFiles.map Tracked.text =
    (d.texts.filter fun t => t.2.1 ≠ t.2.2).mergeSort fun a b => a.1.le b.1 := by
  unfold changedFiles texts
  rw [List.filter_map]
  exact List.map_mergeSort fun a _ b _ => rfl

/-- The changed files, their patches and the sizes depend on the texts alone. -/
theorem shown_congr (h : d.texts = d'.texts) : d.changed = d'.changed ∧ d.diffs = d'.diffs ∧ d.sizes = d'.sizes := by
  have hchanged : d.changedFiles.map Tracked.text = d'.changedFiles.map Tracked.text := by
    rw [changedFiles_text, changedFiles_text, h]
  refine ⟨?_, ?_, ?_⟩
  · have hmap := congrArg (List.map fun t : Bytes × Bytes × Bytes => t.1) hchanged
    rw [List.map_map, List.map_map] at hmap
    exact hmap
  · have hmap := congrArg (List.filterMap fun t : Bytes × Bytes × Bytes => Patch.diff? t.1 t.2.1 t.2.2) hchanged
    rw [List.filterMap_map, List.filterMap_map] at hmap
    exact hmap
  · funext path
    have hfile := (file?_text d path).trans ((congrArg _ h).trans (file?_text d' path).symm)
    unfold sizes
    cases ht : d.file? path with
    | none =>
      rw [ht] at hfile
      rw [Option.map_eq_none_iff.mp hfile.symm]
    | some t =>
      rw [ht] at hfile
      obtain ⟨t', ht', htext⟩ := Option.map_eq_some_iff.mp hfile.symm
      have hfirst : t'.first = t.first := congrArg (·.2.1) htext
      have hlatest : t'.latest = t.latest := congrArg (·.2.2) htext
      rw [ht']
      dsimp only
      rw [hfirst, hlatest]

end Texts

/-- No two tracked files have the same path. -/
def Single (d : Disk) : Prop := ∀ t ∈ d.tracked, d.file? t.path = some t

section Single

variable {d : Disk} (h : d.Single)

include h

theorem Single.track (file : Tracked) : (d.track file).Single := by
  intro t ht
  rw [file?_track]
  have hcases : t = file ∨ (t ∈ d.tracked ∧ t.path ≠ file.path) := by
    unfold Disk.track at ht
    split at ht
    · obtain ⟨u, hu, hut⟩ := List.mem_map.mp ht
      split at hut
      · exact .inl hut.symm
      · next hne => exact .inr (hut ▸ ⟨hu, hne⟩)
    · next hnew =>
      rcases List.mem_append.mp ht with ht | ht
      · refine .inr ⟨ht, fun hpath => hnew ?_⟩
        rw [← hpath, h t ht]
        rfl
      · exact .inl (List.mem_singleton.mp ht)
  obtain rfl | ⟨ht, hne⟩ := hcases
  · exact if_pos rfl
  · rw [if_neg hne]
    exact h t ht

/-- What is tracked already changes nothing. -/
theorem Single.track_self {file : Tracked} (hfile : d.file? file.path = some file) : d.track file = d := by
  unfold Disk.track
  rw [hfile, Option.isSome_some, if_pos rfl]
  have hsame : ∀ t ∈ d.tracked, (if t.path = file.path then file else t) = t := by
    intro t ht
    split
    · next hpath =>
      have heq := (h t ht).symm.trans (hpath ▸ hfile)
      exact (Option.some.inj heq).symm
    · rfl
  rw [List.map_congr_left hsame, List.map_id']

end Single

end Disk

/-- The writes that a request calls for succeed: the backup, if one is to be made, and the file. -/
def Request.Writable (request : Request) (d : Disk) (fs : FileSystem) : Prop :=
  match request with
  | read _ _ => True
  | overwrite path content cancelled => ∀ here data, fs.Holds path here data →
    ∃ made fs₁ fs₂, Backup.create fs cancelled path d.policy = .ok (made, fs₁) ∧
      fs₁.replace cancelled path content data.permissions = .ok fs₂

namespace Disk

/-- The answers to requests one after the other, each with the state it leaves. -/
def trace (d : Disk) (fs : FileSystem) : List Request → List (Reply × Disk × FileSystem)
  | [] => []
  | request :: rest =>
    let answer := request.run d fs
    answer :: trace answer.2.1 answer.2.2 rest

/-- Every write succeeds. -/
def WritesSucceed (d : Disk) (fs : FileSystem) : List Request → Prop
  | [] => True
  | request :: rest =>
    request.Writable d fs ∧ WritesSucceed (request.run d fs).2.1 (request.run d fs).2.2 rest

/-- What is remembered of a file is how it is. -/
def Current (fs : FileSystem) (path : Bytes) (t : Tracked) : Prop :=
  ∃ here data, fs.Holds path here data ∧ t.latest = data.content ∧ t.snapshot = .ofFile path data

/-- A dry run over a file system `fs₀` and a run that writes, which has come to `fs`. -/
structure Sim (policy : BackupPolicy) (paths : List Bytes) (fs₀ : FileSystem) (dry : Disk) (real : Disk)
    (fs : FileSystem) : Prop where
  dryRun : dry.dryRun = true
  writing : real.dryRun = false
  keeps : real.policy = policy
  apart : Apart policy paths fs
  texts : dry.texts = real.texts
  single : real.Single
  first : ∀ path t, real.file? path = some t → fs₀.read path = .ok t.first
  current : ∀ path ∈ paths, ∀ t, real.file? path = some t → Current fs path t
  untouched : ∀ path ∈ paths, real.file? path = none → Snapshot.take fs false path = Snapshot.take fs₀ false path

namespace Sim

variable {policy : BackupPolicy} {paths : List Bytes} {fs₀ fs : FileSystem} {dry real : Disk}

theorem file?_text_eq (h : Sim policy paths fs₀ dry real fs) (path : Bytes) :
    (dry.file? path).map Tracked.text = (real.file? path).map Tracked.text := by
  rw [file?_text, file?_text, h.texts]

theorem file?_eq_none (h : Sim policy paths fs₀ dry real fs) {path : Bytes} (hnone : real.file? path = none) :
    dry.file? path = none := by
  have htext := h.file?_text_eq path
  rw [hnone] at htext
  exact Option.map_eq_none_iff.mp htext

theorem exists_file? (h : Sim policy paths fs₀ dry real fs) {path : Bytes} {t : Tracked}
    (ht : real.file? path = some t) : ∃ t', dry.file? path = some t' ∧ t'.text = t.text := by
  have htext := h.file?_text_eq path
  rw [ht] at htext
  exact Option.map_eq_some_iff.mp htext

/-- Either run remembers a new state of a file. -/
theorem track (h : Sim policy paths fs₀ dry real fs) {fs' : FileSystem} (hapart : Apart policy paths fs')
    {t t' : Tracked} (htext : t'.text = t.text) (hfirst : fs₀.read t.path = .ok t.first) (hnow : Current fs' t.path t)
    (hother : ∀ q ∈ paths, q ≠ t.path → Same fs fs' q) :
    Sim policy paths fs₀ (dry.track t') (real.track t) fs' where
  dryRun := (track_dryRun dry t').trans h.dryRun
  writing := (track_dryRun real t).trans h.writing
  keeps := (track_policy real t).trans h.keeps
  apart := hapart
  texts := texts_track_congr h.texts htext
  single := h.single.track t
  first := by
    intro q u hu
    rw [file?_track] at hu
    split at hu
    · next hq =>
      cases hu
      rw [hq]
      exact hfirst
    · exact h.first q u hu
  current := by
    intro q hq u hu
    rw [file?_track] at hu
    split at hu
    · next hqt =>
      cases hu
      rw [hqt]
      exact hnow
    · next hqt =>
      obtain ⟨here, data, hp, hlatest, hsnapshot⟩ := h.current q hq u hu
      exact ⟨here, data, (hother q hq hqt).holds hp, hlatest, hsnapshot⟩
  untouched := by
    intro q hq hu
    rw [file?_track] at hu
    split at hu
    · cases hu
    · next hqt =>
      rw [(hother q hq hqt).take_eq (h.apart.known q hq)]
      exact h.untouched q hq hu

/-- Both runs know the file alike, or neither can read it. -/
theorem known (h : Sim policy paths fs₀ dry real fs) {path : Bytes} (hpath : path ∈ paths) :
    (∃ e, dry.known fs₀ false path = .error e ∧ real.known fs false path = .error e) ∨
    ∃ t' dry' t real', dry.known fs₀ false path = .ok (t', dry') ∧ real.known fs false path = .ok (t, real') ∧
      t'.text = t.text ∧ t.path = path ∧ real'.file? path = some t ∧ Sim policy paths fs₀ dry' real' fs := by
  unfold Disk.known
  cases ht : real.file? path with
  | some t =>
    obtain ⟨t', ht', htext⟩ := h.exists_file? ht
    rw [ht']
    exact .inr ⟨t', dry, t, real, rfl, rfl, htext, path_of_file? ht, ht, h⟩
  | none =>
    rw [h.file?_eq_none ht]
    dsimp only
    unfold fetch
    rw [ht, h.file?_eq_none ht, h.untouched path hpath ht]
    cases htake : Snapshot.take fs₀ false path with
    | error e => exact .inl ⟨e, rfl, rfl⟩
    | ok found =>
      obtain ⟨content, snapshot⟩ := found
      have htake' := (h.untouched path hpath ht).trans htake
      obtain ⟨here₀, data₀, hp₀, hcontent₀, -⟩ := Snapshot.exists_holds_of_take htake
      obtain ⟨here, data, hp, hcontent, hsnapshot⟩ := Snapshot.exists_holds_of_take htake'
      refine .inr ⟨_, _, _, _, rfl, rfl, rfl, rfl, ?_, ?_⟩
      · rw [file?_track, if_pos rfl]
      · apply h.track h.apart rfl
        · rw [hp₀.read, hcontent₀]
          rfl
        · exact ⟨here, data, hp, hcontent, hsnapshot⟩
        · exact fun q _ _ => same_refl fs q

/-- A dry run reads what it knows. -/
theorem read_dry (h : dry.dryRun = true) (path : Bytes) : dry.read fs₀ false path =
    match dry.known fs₀ false path with
    | .ok (t, d) => (.ok t.latest, d)
    | .error e => (.error e, dry) := by
  unfold Disk.read Disk.known
  rw [h, if_pos rfl]
  cases dry.file? path <;> rfl

/-- Reading a file again, unchanged, finds what is known. -/
theorem read_real (h : Sim policy paths fs₀ dry real fs) {path : Bytes} (hpath : path ∈ paths) :
    real.read fs false path =
      match real.known fs false path with
      | .ok (t, d) => (.ok t.latest, d)
      | .error e => (.error e, real) := by
  unfold Disk.read Disk.known
  rw [h.writing, if_neg (by simp)]
  cases ht : real.file? path with
  | none => rfl
  | some t =>
    obtain ⟨here, data, hp, hlatest, hsnapshot⟩ := h.current path hpath t ht
    obtain rfl := path_of_file? ht
    have hagain : (⟨t.path, t.first, data.content, .ofFile t.path data⟩ : Tracked) = t := by
      rw [← hlatest, ← hsnapshot]
    dsimp only
    unfold fetch
    rw [Snapshot.take_of_holds hp, ht]
    show (Except.ok data.content, real.track ⟨t.path, t.first, data.content, .ofFile t.path data⟩) = _
    rw [hagain, h.single.track_self ht, hlatest]

/-- A commit that is not hindered leaves the file with the new content. -/
theorem commit (h : Sim policy paths fs₀ dry real fs) {t t' : Tracked} (hpath : t.path ∈ paths) (htext : t'.text = t.text)
    (ht : real.file? t.path = some t) {content : Bytes}
    (hwrites : ∀ here data, fs.Holds t.path here data → ∃ made fs₁ fs₂,
      Backup.create fs false t.path real.policy = .ok (made, fs₁) ∧
        fs₁.replace false t.path content data.permissions = .ok fs₂) :
    ∃ real' fs', real.commit fs false t content = (.ok (), real', fs') ∧
      Sim policy paths fs₀ (dry.track { t' with latest := content }) real' fs' := by
  obtain ⟨here, data, hp, -, hsnapshot⟩ := h.current t.path hpath t ht
  obtain ⟨made, fs₁, fs₂, hcreate, hreplace⟩ := hwrites here data hp
  obtain ⟨hapart₁, hsame₁⟩ := h.apart.create hpath (h.keeps ▸ hcreate)
  have hp₁ := (hsame₁ t.path hpath).holds hp
  obtain ⟨hapart₂, ⟨w, hr⟩, hsame₂⟩ := hapart₁.replace hpath hp₁.toLeads hreplace
  have hnew := hr.holds hp₁.readable
  have hnoted : Sim policy paths fs₀ dry (real.noted made t.path) fs := by
    cases made with
    | false => exact h
    | true => exact ⟨h.dryRun, h.writing, h.keeps, h.apart, h.texts, h.single, h.first, h.current, h.untouched⟩
  have hshown : (t'.path, t'.first, content) = (t.path, t.first, content) := by
    have hpath : t'.path = t.path := congrArg (·.1) htext
    have hfirst : t'.first = t.first := congrArg (·.2.1) htext
    rw [hpath, hfirst]
  refine ⟨_, fs₂, commit_eq real hp.toLeads hsnapshot hcreate hreplace hnew, ?_⟩
  apply hnoted.track hapart₂
  · exact hshown
  · exact h.first t.path t ht
  · exact ⟨w, _, hnew, rfl, rfl⟩
  · exact fun q hq hne => (hsame₁ q hq).trans (hsame₂ q hq hne)

/-- Either run answers a request alike. -/
theorem step (h : Sim policy paths fs₀ dry real fs) {request : Request} (hpath : request.path ∈ paths)
    (hlive : request.cancelled = false) (hwrites : request.Writable real fs) :
    (request.run dry fs₀).1 = (request.run real fs).1 ∧ (request.run dry fs₀).2.2 = fs₀ ∧
      Sim policy paths fs₀ (request.run dry fs₀).2.1 (request.run real fs).2.1 (request.run real fs).2.2 := by
  cases request with
  | read path cancelled =>
    obtain rfl : cancelled = false := hlive
    replace hpath : path ∈ paths := hpath
    simp only [Request.run, h.read_real hpath, read_dry h.dryRun]
    obtain ⟨e, hdry, hreal⟩ | ⟨t', dry', t, real', hdry, hreal, htext, -, -, hsim⟩ := h.known hpath
    · rw [hdry, hreal]
      exact ⟨rfl, trivial, h⟩
    · have hlatest : t'.latest = t.latest := congrArg (·.2.2) htext
      rw [hdry, hreal]
      dsimp only
      rw [hlatest]
      exact ⟨rfl, trivial, hsim⟩
  | overwrite path content cancelled =>
    obtain rfl : cancelled = false := hlive
    replace hpath : path ∈ paths := hpath
    simp only [Request.run, overwrite_eq]
    obtain ⟨e, hdry, hreal⟩ | ⟨t', dry', t, real', hdry, hreal, htext, rfl, ht, hsim⟩ := h.known hpath
    · rw [hdry, hreal]
      exact ⟨rfl, rfl, h⟩
    · have hpolicy := (known_cases hreal).2.1
      obtain ⟨real'', fs', hcommit, hsim'⟩ :=
        hsim.commit hpath htext ht fun here data hp => hpolicy ▸ hwrites here data hp
      rw [hdry, hreal]
      dsimp only
      rw [if_pos hsim.dryRun, if_neg (by simp [hsim.writing]), hcommit]
      exact ⟨rfl, rfl, hsim'⟩

end Sim

/-- What a caller sees of a disk after a request. -/
structure Sight where
  reply : Reply
  changed : List Bytes
  diffs : List Patch.Diff
  sizes : Bytes → Nat × Nat

def sight (s : Reply × Disk × FileSystem) : Sight := ⟨s.1, s.2.1.changed, s.2.1.diffs, s.2.1.sizes⟩

/-- The first content of every tracked file is the one that the file had at the start. -/
def Recalls (fs : FileSystem) (d : Disk) : Prop := ∀ path t, d.file? path = some t → fs.read path = .ok t.first

theorem Sim.recalls_dry {policy : BackupPolicy} {paths : List Bytes} {fs₀ fs : FileSystem} {dry real : Disk}
    (h : Sim policy paths fs₀ dry real fs) : Recalls fs₀ dry := by
  intro path t ht
  have htext := h.file?_text_eq path
  rw [ht] at htext
  obtain ⟨t', ht', htext⟩ := Option.map_eq_some_iff.mp htext.symm
  have hfirst : t'.first = t.first := congrArg (·.2.1) htext
  rw [← hfirst]
  exact h.first path t' ht'

theorem Sim.run {policy : BackupPolicy} {paths : List Bytes} {fs₀ fs : FileSystem} {dry real : Disk}
    (h : Sim policy paths fs₀ dry real fs) {requests : List Request} (hpaths : ∀ r ∈ requests, r.path ∈ paths)
    (hlive : ∀ r ∈ requests, r.cancelled = false) (hwrites : WritesSucceed real fs requests) :
    (dry.trace fs₀ requests).map sight = (real.trace fs requests).map sight ∧
      (∀ s ∈ dry.trace fs₀ requests, s.2.2 = fs₀ ∧ Recalls fs₀ s.2.1) ∧
      ∀ s ∈ real.trace fs requests, Recalls fs₀ s.2.1 := by
  induction requests generalizing dry real fs with
  | nil => simp [trace]
  | cons request rest ih =>
    rw [List.forall_mem_cons] at hpaths hlive
    obtain ⟨hnow, hlater⟩ := hwrites
    obtain ⟨hreply, hstill, hsim⟩ := h.step hpaths.1 hlive.1 hnow
    obtain ⟨hsights, hdry, hreal⟩ := ih hsim hpaths.2 hlive.2 hlater
    obtain ⟨hchanged, hdiffs, hsizes⟩ := shown_congr hsim.texts
    have hsight : sight (request.run dry fs₀) = sight (request.run real fs) := by
      unfold sight
      rw [hreply, hchanged, hdiffs, hsizes]
    simp only [trace, List.map_cons, List.forall_mem_cons, hstill]
    exact ⟨by rw [hsights, hsight], ⟨⟨trivial, hsim.recalls_dry⟩, hdry⟩, hsim.first, hreal⟩

/-- A dry run shows what a run that writes would show. -/
theorem dryRun_agrees {fs : FileSystem} {requests : List Request} {policy : BackupPolicy} (dryPolicy : BackupPolicy)
    (hapart : Apart policy (requests.map Request.path) fs) (hlive : ∀ r ∈ requests, r.cancelled = false)
    (hwrites : WritesSucceed (start false policy) fs requests) :
    (trace (start true dryPolicy) fs requests).map sight = (trace (start false policy) fs requests).map sight ∧
      (∀ s ∈ trace (start true dryPolicy) fs requests, s.2.2 = fs ∧ Recalls fs s.2.1) ∧
      ∀ s ∈ trace (start false policy) fs requests, Recalls fs s.2.1 := by
  have hstart : Sim policy (requests.map Request.path) fs (start true dryPolicy) (start false policy) fs :=
    { dryRun := rfl, writing := rfl, keeps := rfl, apart := hapart, texts := rfl
      single := fun t ht => by cases ht
      first := fun path t ht => by cases ht
      current := fun path _ t ht => by cases ht
      untouched := fun _ _ _ => rfl }
  exact hstart.run (fun r hr => List.mem_map_of_mem hr) hlive hwrites

section Lone

/-- The first overwriting of the file is not hindered. -/
theorem lone_writable : (Request.overwrite "b" "y" false).Writable (start false .standard) lone := by
  intro here data hp
  obtain ⟨rfl, rfl⟩ := lone_holds.unique hp.toLeads
  exact ⟨true, loneBacked, loneWritten, lone_backup, lone_replace⟩

/-- The file and a path that leads to nothing. -/
theorem lone_paths {paths : List Bytes} {c : Bytes} (hc : lone.Lacks c) (hpaths : ∀ p ∈ paths, p = bytes "b" ∨ p = c) :
    (∀ p ∈ paths, (∃ here data, lone.Leads p here data) ∨ lone.Lacks p) ∧
      ∀ p ∈ paths, ∀ q ∈ paths, p ≠ q → ∀ here, lone.locate .thing p = .ok here → lone.locate .thing q ≠ .ok here := by
  refine ⟨fun p hp => ?_, fun p hp q hq hne here hlp hlq => ?_⟩
  · obtain rfl | rfl := hpaths p hp
    · exact .inl ⟨_, _, lone_holds.toLeads⟩
    · exact .inr hc
  · obtain rfl | rfl := hpaths p hp
    · obtain rfl | rfl := hpaths q hq
      · exact hne rfl
      · have hnot := hc.symm.trans hlq
        cases hnot
    · have hnot := hc.symm.trans hlp
      cases hnot

theorem fromRoot_c : FromRoot "c" (bytes "c") [] := ⟨by decide, .inl (by decide), by decide, by decide, by decide⟩

/-- A file is overwritten, with a backup, and read again; another is not there. -/
theorem dryRun_agrees_lone :
    let requests : List Request := [.overwrite "b" "y" false, .read "b" false, .read "c" false]
    (Apart .standard (requests.map Request.path) lone ∧ (∀ r ∈ requests, r.cancelled = false) ∧
      WritesSucceed (start false .standard) lone requests) ∧
    (trace (start true .standard) lone requests).map sight = (trace (start false .standard) lone requests).map sight ∧
      (∀ s ∈ trace (start true .standard) lone requests, s.2.2 = lone ∧ Recalls lone s.2.1) ∧
      ∀ s ∈ trace (start false .standard) lone requests, Recalls lone s.2.1 := by
  intro requests
  have hc : lone.Lacks "c" := fromRoot_c.locate_none rfl .thing (by decide)
  have hlooks : lone.looks .thing "c" = [[bytes "c"]] := by
    have hstart : lone.start? "c" = some [] := rfl
    have hnames : FileSystem.pathNames "c" = [bytes "c"] := by decide
    rw [FileSystem.looks, hstart]
    dsimp only
    rw [hnames, FileSystem.looked_seen _ fromRoot_c.proper]
    rfl
  have hpaths : ∀ p ∈ requests.map Request.path, p = bytes "b" ∨ p = bytes "c" := by
    simp [requests, Request.path]
  have hapart : Apart .standard (requests.map Request.path) lone := by
    refine ⟨lone_grounded, (lone_paths hc hpaths).1, (lone_paths hc hpaths).2, ?_⟩
    intro p hp q hq hne hq' place w htarget hplace hw hmem
    obtain rfl | rfl := hpaths q hq
    · have hnot := lone_holds.locate.symm.trans hq'
      cases hnot
    · obtain rfl := (hpaths p hp).resolve_right hne
      obtain rfl : bytes "b" ++ BackupPolicy.suffix = place := Option.some.inj htarget
      obtain rfl := Except.ok.inj (lone_slot_backup.symm.trans hw)
      rw [hlooks] at hmem
      revert hmem
      decide
  have hlive : ∀ r ∈ requests, r.cancelled = false := by
    simp [requests, Request.cancelled]
  have hwrites : WritesSucceed (start false .standard) lone requests := ⟨lone_writable, trivial, trivial, trivial⟩
  exact ⟨⟨hapart, hlive, hwrites⟩, dryRun_agrees .standard hapart hlive hwrites⟩

/-- Paths to different files or to nothing, none of them that of the backup of another. -/
structure Named (fs : FileSystem) (paths : List Bytes) : Prop where
  known : ∀ p ∈ paths, (∃ here data, fs.Leads p here data) ∨ fs.Lacks p
  distinct : ∀ p ∈ paths, ∀ q ∈ paths, p ≠ q → ∀ here, fs.locate .thing p = .ok here → fs.locate .thing q ≠ .ok here
  unrelated : ∀ p ∈ paths, ∀ q ∈ paths, q ≠ p ++ BackupPolicy.suffix

/-- A dry run shows something else where a path leads over a backup that it does not make, and where
it answers a cancelled request from memory. -/
theorem dryRun_differs :
    (let requests : List Request := [.overwrite "b" "y" false, .read "b.ngmigrate.bak/x" false]
     Named lone (requests.map Request.path) ∧ WritesSucceed (start false .standard) lone requests ∧
       (trace (start true .standard) lone requests).map sight ≠ (trace (start false .standard) lone requests).map sight) ∧
    (let requests : List Request := [.read "b" false, .read "b" true]
     Named lone (requests.map Request.path) ∧ WritesSucceed (start false .standard) lone requests ∧
       (trace (start true .standard) lone requests).map sight ≠ (trace (start false .standard) lone requests).map sight) := by
  refine ⟨?_, ?_⟩
  · intro requests
    have hbelow : FromRoot "b.ngmigrate.bak/x" (bytes "b.ngmigrate.bak") [bytes "x"] :=
      ⟨by decide, .inl (by decide), by decide, by decide, by decide⟩
    have hc : lone.Lacks "b.ngmigrate.bak/x" := hbelow.locate_none rfl .thing (by decide)
    have hpaths : ∀ p ∈ requests.map Request.path, p = bytes "b" ∨ p = bytes "b.ngmigrate.bak/x" := by
      simp [requests, Request.path]
    refine ⟨⟨(lone_paths hc hpaths).1, (lone_paths hc hpaths).2, ?_⟩, ⟨lone_writable, trivial, trivial⟩, ?_⟩
    · intro p hp q hq
      obtain rfl | rfl := hpaths p hp <;> obtain rfl | rfl := hpaths q hq <;> decide
    · intro hsame
      obtain ⟨d, hoverwrite, hwriting, hother⟩ := lone_overwrite
      have hne : bytes "b.ngmigrate.bak/x" ≠ bytes "b" := by decide
      have hblocked : loneWritten.locate .thing "b.ngmigrate.bak/x" = .error .notDirectory :=
        hbelow.locate_file rfl .thing rfl
      have htake : Snapshot.take loneWritten false "b.ngmigrate.bak/x" =
          .error (readFault "b.ngmigrate.bak/x" (FileSystem.refusal "stat" "b.ngmigrate.bak/x" .notDirectory)) := by
        unfold Snapshot.take FileSystem.status FileSystem.statusAt
        rw [hblocked]
        rfl
      have hreply := congrArg (fun l => (l.map Sight.reply)[1]?) hsame
      simp only [requests, trace, Request.run, hoverwrite, overwrite_dry (d := start true .standard) rfl rfl lone_holds,
        read_failing (fun _ => hother _ hne) htake, List.map_cons, List.map_nil, sight, List.getElem?_cons_succ,
        List.getElem?_cons_zero, Option.some.injEq, Reply.content.injEq] at hreply
      rw [read_failing ?_ (Snapshot.take_of_lacks hc)] at hreply
      · have hkind := congrArg (Fault.isA · .notFound) (Except.error.inj hreply)
        rw [(Snapshot.isA_notFound_readFault ..).mpr rfl] at hkind
        cases (Snapshot.isA_notFound_readFault ..).mp hkind.symm
      · intro _
        rw [file?_track, if_neg hne, file?_track, if_neg hne]
        rfl
  · intro requests
    have hc : lone.Lacks "c" := fromRoot_c.locate_none rfl .thing (by decide)
    have hpaths : ∀ p ∈ requests.map Request.path, p = bytes "b" ∨ p = bytes "c" := by
      simp [requests, Request.path]
    refine ⟨⟨(lone_paths hc hpaths).1, (lone_paths hc hpaths).2, ?_⟩, ⟨trivial, trivial, trivial⟩, ?_⟩
    · intro p hp q hq
      obtain rfl | rfl := hpaths p hp <;> obtain rfl | rfl := hpaths q hq <;> decide
    · intro hsame
      have htake : Snapshot.take lone true "b" = .error (.within "read file" (.category .cancelled)) := rfl
      have hreal : ∀ t, ((start false .standard).track t).read lone true "b" =
          (.error (.within "read file" (.category .cancelled)), (start false .standard).track t) := by
        intro t
        apply read_failing _ htake
        rw [track_dryRun]
        rintro ⟨⟩
      have hreply := congrArg (fun l => (l.map Sight.reply)[1]?) hsame
      simp only [requests, trace, Request.run, read_fresh (d := start true .standard) rfl lone_holds,
        read_fresh (d := start false .standard) rfl lone_holds, hreal, List.map_cons, List.map_nil, sight,
        List.getElem?_cons_succ, List.getElem?_cons_zero, Option.some.injEq, Reply.content.injEq] at hreply
      unfold Disk.read at hreply
      rw [track_dryRun, file?_track] at hreply
      cases hreply

end Lone

end Disk

end Codemod.Workspace
