import Mathlib.Logic.Function.Basic
import Mathlib.Logic.Relation
import Codemod.Proofs.Workspace.Calls

namespace Codemod.Workspace

open Files

/-- Several disks over one file system, each with what it has read there. -/
structure Runs (ι : Type) where
  trees : ι → Disk
  fs : FileSystem
  readable : ∀ i, (trees i).Readable fs

/-- Nothing changes at a file, at its backup and on the way to them, and files can still be written
beside it. -/
structure Untouched (path : Bytes) (fs fs' : FileSystem) : Prop where
  grounded : fs'.Grounded
  workplace : fs'.workplace = fs.workplace
  privileged : fs'.privileged = fs.privileged
  entry : ∀ w, w ∈ fs.looks .thing path ∨ w ∈ fs.looks .thing (path ++ BackupPolicy.suffix) →
    fs'.entry? w = fs.entry? w
  reachable : fs.Reachable path → fs'.Reachable path

theorem untouched_refl (path : Bytes) {fs : FileSystem} (h : fs.Grounded) : Untouched path fs fs :=
  ⟨h, rfl, rfl, fun _ _ => rfl, id⟩

namespace Untouched

variable {path : Bytes} {fs fs' : FileSystem} (h : Untouched path fs fs')

include h

theorem file : fs'.locate .thing path = fs.locate .thing path ∧ fs'.looks .thing path = fs.looks .thing path :=
  FileSystem.locate_congr h.workplace fun w hw => h.entry w (.inl hw)

theorem place (aim : Aim) : fs'.locate aim (path ++ BackupPolicy.suffix) = fs.locate aim (path ++ BackupPolicy.suffix) := by
  apply (FileSystem.locate_congr h.workplace ?_).1
  intro w hw
  exact h.entry w (.inr (FileSystem.looks_subset_thing fs aim _ hw))

theorem leads (hfs : fs.Grounded) {here : Location} {data : FileData} (hp : fs.Leads path here data) :
    fs'.Leads path here data :=
  ⟨h.file.1.trans hp.locate, (h.entry here (.inl (hp.mem_looks hfs))).trans hp.entry⟩

theorem backed {content : Bytes} (hb : Backed fs path content) : Backed fs' path content := by
  obtain ⟨here, data, hp⟩ := hb.file
  obtain ⟨w, kept, hslot, hentry, hreadable, hcontent, hapart⟩ := hb.backup
  have hmem : w ∈ fs.looks .thing (path ++ BackupPolicy.suffix) := by
    apply FileSystem.mem_looks_of_locate hb.grounded (FileSystem.locate_of_slot hb.grounded hslot hentry .thing)
    rw [hentry]
    simp
  refine ⟨h.grounded, ⟨here, data, h.leads hb.grounded hp⟩, w, kept, (h.place .slot).trans hslot,
    (h.entry w (.inr hmem)).trans hentry, FileSystem.mayRead_congr h.privileged hreadable, hcontent, ?_⟩
  rw [h.file.2]
  exact hapart

end Untouched

/-- A request was answered by writing a file. -/
def Request.wrote (request : Request) (path : Bytes) (dryRun : Bool) (reply : Reply) : Bool :=
  match request, reply with
  | overwrite target _ _, .done (.ok _) => target = path && !dryRun
  | _, _ => false

namespace Disk

variable {d d' : Disk} {fs fs' : FileSystem} {path content first : Bytes} {cancelled : Bool} {result : Except Fault Unit}

/-- With the backup made, the writing of the file fails and does nothing, or it succeeds. -/
theorem written_of_backed (hb : Backed fs path first)
    (h : (fs' = fs ∧ result ≠ .ok ()) ∨ ∃ permissions, fs.mayRead permissions = true ∧
      fs.replace cancelled path content permissions = .ok fs' ∧
      (result = .ok () ∨ ∃ e, Snapshot.take fs' cancelled path = .error e)) :
    (fs' = fs ∧ result ≠ .ok ()) ∨ (result = .ok () ∧ Backed fs' path first ∧ fs'.Reachable path) := by
  obtain hfailed | ⟨permissions, hmode, hreplace, hresult⟩ := h
  · exact .inl hfailed
  · obtain ⟨rfl, hreach, -⟩ := (FileSystem.replace_eq_ok cancelled).mp hreplace
    obtain ⟨here, data, hp⟩ := hb.file
    obtain ⟨w, hr⟩ := hp.replace hb.grounded hreplace
    refine .inr ⟨?_, hb.of_written hr, hr.reachable hb.grounded hreach⟩
    apply hresult.resolve_right
    rintro ⟨e, htake⟩
    rw [Snapshot.take_of_holds (hr.holds hmode)] at htake
    cases htake

variable (htarget : d.policy.target? path = some (path ++ BackupPolicy.suffix)) (hreadable : d.Readable fs)
  (h : d.overwrite fs cancelled path content = (result, d', fs'))

include htarget hreadable h

theorem overwrite_of_missing (hfs : fs.Grounded) {here : Location} {data : FileData} (hp : fs.Leads path here data)
    {e : Errno} (hmissing : fs.locate .thing (path ++ BackupPolicy.suffix) = .error e) :
    (fs' = fs ∧ d'.backups = d.backups ∧ (result = .ok () → d.dryRun = true)) ∨
    (d.dryRun = false ∧ d'.backups = d.backups ++ [path] ∧ fs.Holds path here data ∧ Backed fs' path data.content ∧
      ((fs'.Holds path here data ∧ result ≠ .ok ()) ∨ (result = .ok () ∧ fs'.Reachable path))) := by
  obtain ⟨-, -, hidle | ⟨hdry, made, fs₁, hcreate, hbackups, hwrite⟩⟩ := overwrite_cases h
  · exact .inl hidle
  · obtain ⟨rfl, hbefore, hbacked, hstill⟩ := Backup.create_of_missing htarget hcreate hfs hp hmissing
    refine .inr ⟨hdry, hbackups, hbefore, ?_⟩
    obtain ⟨rfl, hresult⟩ | ⟨hresult, hbacked', hreach⟩ :=
      written_of_backed hbacked (hwrite.imp_right fun ⟨p, hmode, hreplace⟩ => ⟨p, hmode hreadable, hreplace⟩)
    · exact ⟨hbacked, .inl ⟨hstill, hresult⟩⟩
    · exact ⟨hbacked', .inr ⟨hresult, hreach⟩⟩

theorem overwrite_of_backed (hb : Backed fs path first) :
    d'.backups = d.backups ∧ ((fs' = fs ∧ (result = .ok () → d.dryRun = true)) ∨
      (d.dryRun = false ∧ result = .ok () ∧ Backed fs' path first ∧ fs'.Reachable path)) := by
  obtain ⟨-, -, ⟨hfs, hbackups, hresult⟩ | ⟨hdry, made, fs₁, hcreate, hbackups, hwrite⟩⟩ := overwrite_cases h
  · exact ⟨hbackups, .inl ⟨hfs, hresult⟩⟩
  · obtain ⟨rfl, rfl⟩ := Backup.create_of_backed htarget hcreate hb
    refine ⟨hbackups, ?_⟩
    obtain ⟨rfl, hresult⟩ | hdone :=
      written_of_backed hb (hwrite.imp_right fun ⟨p, hmode, hreplace⟩ => ⟨p, hmode hreadable, hreplace⟩)
    · exact .inl ⟨rfl, fun hok => absurd hok hresult⟩
    · exact .inr ⟨hdry, hdone⟩

end Disk

section Step

variable {ι : Type} [DecidableEq ι]

namespace Runs

/-- The disks after a request to one of them. -/
def after (s : Runs ι) (i : ι) (request : Request) : Runs ι where
  trees := Function.update s.trees i (request.run (s.trees i) s.fs).2.1
  fs := (request.run (s.trees i) s.fs).2.2
  readable j := by
    by_cases hj : j = i
    · rw [hj, Function.update_self]
      exact request.readable_run _ _ (s.readable i)
    · rw [Function.update_of_ne hj]
      exact (s.readable j).congr (request.privileged_run _ _)

/-- The disks after something that happens elsewhere. -/
def beside (s : Runs ι) {path : Bytes} {fs : FileSystem} (h : Untouched path s.fs fs) : Runs ι :=
  ⟨s.trees, fs, fun i => (s.readable i).congr h.privileged⟩

/-- A request to one of the disks, or something that happens elsewhere. Only the requests for a
file touch it, or its backup. The flag says that the file was written. -/
inductive Step (path : Bytes) : Bool → Runs ι → Runs ι → Prop
  | request (s : Runs ι) (i : ι) (request : Request)
      (elsewhere : request.path ≠ path → Untouched path s.fs (s.after i request).fs) :
      Step path (request.wrote path (s.trees i).dryRun (request.run (s.trees i) s.fs).1) s (s.after i request)
  | other (s : Runs ι) (fs : FileSystem) (elsewhere : Untouched path s.fs fs) : Step path false s (s.beside elsewhere)

/-- The file has not been backed up. -/
structure Bare (path : Bytes) (s : Runs ι) : Prop where
  grounded : s.fs.Grounded
  file : ∃ here data, s.fs.Leads path here data
  missing : ∃ e, s.fs.locate .thing (path ++ BackupPolicy.suffix) = .error e
  unlisted : ∀ i, path ∉ (s.trees i).backups

/-- The file has a backup with some content, and one of the disks knows that it made it. -/
structure Kept (path content : Bytes) (s : Runs ι) : Prop where
  backed : Backed s.fs path content
  listed : ∃! i, path ∈ (s.trees i).backups

/-- All disks put the backup of the file beside it. -/
def Keeping (path : Bytes) (s : Runs ι) : Prop :=
  ∀ i, (s.trees i).policy.target? path = some (path ++ BackupPolicy.suffix)

/-- Before the file is written, it has no backup or one with its own content. -/
def Unwritten (path : Bytes) (s : Runs ι) : Prop :=
  s.Bare path ∨ ∃ content, s.fs.read path = .ok content ∧ s.Kept path content

variable {path : Bytes} {s s' : Runs ι} {wrote : Bool}

theorem Keeping.step (h : s.Keeping path) (hstep : Step path wrote s s') : s'.Keeping path := by
  cases hstep with
  | request _ i request _ =>
    intro j
    show (Function.update s.trees i (request.run (s.trees i) s.fs).2.1 j).policy.target? path = _
    by_cases hj : j = i
    · rw [hj, Function.update_self, request.run_policy]
      exact h i
    · rw [Function.update_of_ne hj]
      exact h j
  | other _ fs _ => exact h

/-- The other disks are not concerned. -/
theorem listed_update (trees : ι → Disk) {i : ι} {d : Disk} (h : path ∈ d.backups ↔ path ∈ (trees i).backups) (j : ι) :
    path ∈ (Function.update trees i d j).backups ↔ path ∈ (trees j).backups := by
  by_cases hj : j = i
  · rw [hj, Function.update_self]
    exact h
  · rw [Function.update_of_ne hj]

/-- The file and its backup are left alone, or one of the disks is asked to overwrite the file. -/
theorem step_cases (hfs : s.fs.Grounded) (hstep : Step path wrote s s') :
    (wrote = false ∧ Untouched path s.fs s'.fs ∧ ∀ j, path ∈ (s'.trees j).backups ↔ path ∈ (s.trees j).backups) ∨
    ∃ i new cancelled result d, (s.trees i).overwrite s.fs cancelled path new = (result, d, s'.fs) ∧
      s'.trees = Function.update s.trees i d ∧ (wrote = true ↔ result = .ok () ∧ (s.trees i).dryRun = false) := by
  cases hstep with
  | other _ fs elsewhere => exact .inl ⟨rfl, elsewhere, fun _ => Iff.rfl⟩
  | request _ i request elsewhere =>
    cases request with
    | read target cancelled =>
      refine .inl ⟨rfl, untouched_refl path hfs, listed_update s.trees ?_⟩
      show path ∈ ((s.trees i).read s.fs cancelled target).2.backups ↔ _
      rw [Disk.read_keeps.2.2]
    | overwrite target new cancelled =>
      by_cases hpath : target = path
      · subst hpath
        refine .inr ⟨i, new, cancelled, ((s.trees i).overwrite s.fs cancelled target new).1,
          ((s.trees i).overwrite s.fs cancelled target new).2.1, rfl, rfl, ?_⟩
        show Request.wrote _ _ _ (.done ((s.trees i).overwrite s.fs cancelled target new).1) = true ↔ _
        cases ((s.trees i).overwrite s.fs cancelled target new).1 <;> simp [Request.wrote]
      · refine .inl ⟨?_, elsewhere hpath, listed_update s.trees (Request.mem_backups_run _ _ _ hpath)⟩
        show Request.wrote _ _ _ (.done ((s.trees i).overwrite s.fs cancelled target new).1) = false
        cases ((s.trees i).overwrite s.fs cancelled target new).1 <;> simp [Request.wrote, hpath]

/-- Whatever happens, a backup stays as it is. -/
theorem Kept.step {content : Bytes} (h : s.Kept path content) (hkeeping : s.Keeping path)
    (hstep : Step path wrote s s') :
    s'.Kept path content ∧ (wrote = false → s'.fs.read path = s.fs.read path) ∧
      (wrote = true ∨ s.fs.Reachable path → s'.fs.Reachable path) := by
  obtain ⟨rfl, htouch, hlisted⟩ | ⟨i, new, cancelled, result, d, hrun, htrees, hwrote⟩ :=
    step_cases h.backed.grounded hstep
  · obtain ⟨here, data, hp⟩ := h.backed.file
    refine ⟨⟨htouch.backed h.backed, by simpa only [hlisted] using h.listed⟩, fun _ => ?_, fun hreach => ?_⟩
    · exact hp.read_eq (htouch.leads h.backed.grounded hp) htouch.privileged
    · exact htouch.reachable (hreach.resolve_left (by simp))
  · obtain ⟨hbackups, hdone⟩ := Disk.overwrite_of_backed (hkeeping i) (s.readable i) hrun h.backed
    have hlisted : ∃! j, path ∈ (s'.trees j).backups := by
      rw [htrees]
      simp only [listed_update s.trees (show path ∈ d.backups ↔ path ∈ (s.trees i).backups by rw [hbackups])]
      exact h.listed
    obtain ⟨hfs, hresult⟩ | ⟨hdry, hresult, hbacked, hreach⟩ := hdone
    · have hnot : wrote ≠ true := by
        rw [Ne, hwrote]
        rintro ⟨hok, hdry⟩
        rw [hresult hok] at hdry
        cases hdry
      rw [hfs]
      exact ⟨⟨hfs ▸ h.backed, hlisted⟩, fun _ => rfl, fun hreach => hreach.resolve_left hnot⟩
    · refine ⟨⟨hbacked, hlisted⟩, fun hnot => ?_, fun _ => hreach⟩
      rw [hwrote.mpr ⟨hresult, hdry⟩] at hnot
      cases hnot

/-- Before the file is written it may be backed up, and when it is written it has been. -/
theorem Bare.step (h : s.Bare path) (hkeeping : s.Keeping path) (hstep : Step path wrote s s') :
    (wrote = false → s'.Unwritten path) ∧
      (wrote = true → ∃ content, s.fs.read path = .ok content ∧ s'.Kept path content ∧ s'.fs.Reachable path) := by
  obtain ⟨here, data, hp⟩ := h.file
  obtain ⟨e, hmissing⟩ := h.missing
  obtain ⟨rfl, htouch, hlisted⟩ | ⟨i, new, cancelled, result, d, hrun, htrees, hwrote⟩ := step_cases h.grounded hstep
  · refine ⟨fun _ => .inl ⟨htouch.grounded, ⟨here, data, htouch.leads h.grounded hp⟩,
      ⟨e, (htouch.place .thing).trans hmissing⟩, ?_⟩, fun hwrote => by cases hwrote⟩
    simpa only [hlisted] using h.unlisted
  · obtain ⟨hfs, hbackups, hresult⟩ | ⟨hdry, hbackups, hbefore, hbacked, hdone⟩ :=
      Disk.overwrite_of_missing (hkeeping i) (s.readable i) hrun h.grounded hp hmissing
    · refine ⟨fun _ => .inl ⟨hfs ▸ h.grounded, hfs ▸ h.file, hfs ▸ h.missing, fun j => ?_⟩, fun hw => ?_⟩
      · rw [htrees, listed_update s.trees (show path ∈ d.backups ↔ path ∈ (s.trees i).backups by rw [hbackups])]
        exact h.unlisted j
      · obtain ⟨hok, hdry⟩ := hwrote.mp hw
        rw [hresult hok] at hdry
        cases hdry
    · have hlisted : ∃! j, path ∈ (s'.trees j).backups := by
        rw [htrees]
        refine ⟨i, ?_, fun j hj => ?_⟩
        · simp [hbackups]
        · by_contra hne
          dsimp only at hj
          rw [Function.update_of_ne hne] at hj
          exact h.unlisted j hj
      obtain ⟨hstill, hresult⟩ | ⟨hresult, hreach⟩ := hdone
      · refine ⟨fun _ => .inr ⟨data.content, hstill.read, hbacked, hlisted⟩, fun hw => absurd (hwrote.mp hw).1 hresult⟩
      · refine ⟨fun hnot => ?_, fun _ => ⟨data.content, hbefore.read, ⟨hbacked, hlisted⟩, hreach⟩⟩
        rw [hwrote.mpr ⟨hresult, hdry⟩] at hnot
        cases hnot

theorem Unwritten.step (h : s.Unwritten path) (hkeeping : s.Keeping path) (hstep : Step path wrote s s') :
    (wrote = false → s'.Unwritten path) ∧
      (wrote = true → ∃ content, s.fs.read path = .ok content ∧ s'.Kept path content ∧ s'.fs.Reachable path) := by
  obtain hbare | ⟨content, hread, hkept⟩ := h
  · exact hbare.step hkeeping hstep
  · obtain ⟨hkept', hidle, hdone⟩ := hkept.step hkeeping hstep
    exact ⟨fun hnot => .inr ⟨content, (hidle hnot).trans hread, hkept'⟩,
      fun hw => ⟨content, hread, hkept', hdone (.inl hw)⟩⟩

/-- Until the file is written. -/
theorem Unwritten.run (h : s.Unwritten path) (hkeeping : s.Keeping path)
    (hrun : Relation.ReflTransGen (Step path false) s s') : s'.Unwritten path ∧ s'.Keeping path := by
  induction hrun with
  | refl => exact ⟨h, hkeeping⟩
  | tail _ hstep ih =>
    exact ⟨(ih.1.step ih.2 hstep).1 rfl, ih.2.step hstep⟩

/-- From then on. -/
theorem Kept.run {content : Bytes} (h : s.Kept path content) (hreach : s.fs.Reachable path) (hkeeping : s.Keeping path)
    (hrun : Relation.ReflTransGen (fun s t => ∃ wrote, Step path wrote s t) s s') :
    s'.Kept path content ∧ s'.fs.Reachable path := by
  have hall : s'.Kept path content ∧ s'.fs.Reachable path ∧ s'.Keeping path := by
    induction hrun with
    | refl => exact ⟨h, hreach, hkeeping⟩
    | tail _ hstep ih =>
      obtain ⟨wrote, hstep⟩ := hstep
      obtain ⟨hkept, -, hreach'⟩ := ih.1.step ih.2.2 hstep
      exact ⟨hkept, hreach' (.inr ih.2.1), ih.2.2.step hstep⟩
  exact ⟨hall.1, hall.2.1⟩

end Runs

end Step

end Codemod.Workspace
