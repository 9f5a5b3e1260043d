import Codemod.Proofs.Workspace.Calls

namespace Codemod

open Files

theorem Fault.isA_filed (c : Category) (cause : Fault) : (filed c cause).isA c = true := by
  simp [isA, leaves]

/-- The file that a path leads to. -/
def Files.FileSystem.fileAt? (fs : FileSystem) (path : Bytes) : Option FileData :=
  match fs.locate .thing path with
  | .error _ => none
  | .ok here =>
    match fs.entry? here with
    | some (.file data) => some data
    | _ => none

/-- The content of the file that a path leads to, whether or not it may be read. -/
def Files.FileSystem.contentAt? (fs : FileSystem) (path : Bytes) : Option Bytes := (fs.fileAt? path).map FileData.content

/-- Why a file could be neither looked at nor read. -/
inductive Files.Unreadable (fs : FileSystem) (path : Bytes) : Fault → Prop
  | status {e : Fault} (h : fs.status path = .error e) : Unreadable fs path (readFault path e)
  | stat {e : Fault} (h : fs.status path = .error e) : Unreadable fs path (.within ("stat " ++ path) e)
  | directory {s : FileSystem.Status} (h : fs.status path = .ok s) (hdir : s.isDirectory = true) :
      Unreadable fs path (.filed .isDirectory (.plain path))
  | content {e : Fault} (h : fs.read path = .error e) : Unreadable fs path (readFault path e)

namespace Workspace

/-- What happens to the files of a project: a disk is asked for one of them, or others do something and leave
any files behind. -/
inductive Event where
  | call (request : Request)
  | outside (files : FileSystem)

/-- A disk, the files, and what the disk last read from one of them or wrote to it. -/
structure Watch where
  disk : Disk
  files : FileSystem
  seen : Option FileData

namespace Watch

def start (policy : BackupPolicy) (files : FileSystem) : Watch := ⟨.start false policy, files, none⟩

variable (path : Bytes) (w : Watch)

/-- What is known of the file before it is overwritten: one that was never seen is read first, if it may be. -/
def known (cancelled : Bool) : Option FileData :=
  if cancelled then w.seen
  else w.seen <|> (w.files.fileAt? path).filter fun data => w.files.mayRead data.permissions

/-- What a call shows of the file: what it reads there, what it writes there, or nothing new. -/
def shown : Request → Option FileData
  | .read target cancelled =>
    if target ≠ path then w.seen
    else match (w.disk.read w.files cancelled target).1 with
      | .ok _ => w.files.fileAt? path
      | .error _ => w.seen
  | .overwrite target content cancelled =>
    if target ≠ path then w.seen
    else match (w.disk.overwrite w.files cancelled target content).1 with
      | .ok _ => (w.disk.overwrite w.files cancelled target content).2.2.fileAt? path
      | .error _ => w.known path cancelled

def step : Event → Watch
  | .call request => ⟨(request.run w.disk w.files).2.1, (request.run w.disk w.files).2.2, w.shown path request⟩
  | .outside files => { w with files }

def run (events : List Event) : Watch := events.foldl (step path) w

/-- The file is as the disk last saw it, or can be read if the disk has not seen it. -/
def Current : Prop :=
  match w.seen with
  | some last => w.files.contentAt? path = some last.content
  | none => ∃ content, w.files.read path = .ok content

/-- Where size and time are those that the disk last saw, so is the content. -/
def Telling : Prop := ∀ last s, w.seen = some last → w.files.status path = .ok s → s.size = last.content.length →
  s.modified = last.modified → w.files.contentAt? path = some last.content

/-- What is there now and what the disk last saw have different digests, unless they are the same. -/
def Discerned : Prop := ∀ last content, w.seen = some last → w.files.read path = .ok content →
  Digest.sha256 content = Digest.sha256 last.content → content = last.content

/-- The disk writes, and remembers of the file what it last saw of it. -/
structure Mindful : Prop where
  writing : w.disk.dryRun = false
  remembers : (w.disk.file? path).map Tracked.snapshot = w.seen.map (Snapshot.ofFile path)

end Watch

end Workspace

namespace Files

variable {fs : FileSystem} {path : Bytes}

theorem FileSystem.Leads.fileAt? {here : Location} {data : FileData} (h : fs.Leads path here data) :
    fs.fileAt? path = some data := by
  unfold FileSystem.fileAt?
  rw [h.locate]
  dsimp only
  rw [h.entry]

theorem FileSystem.contentAt?_of_read {content : Bytes} (h : fs.read path = .ok content) : fs.contentAt? path = some content := by
  obtain ⟨here, data, hp, rfl⟩ := exists_holds h
  rw [contentAt?, hp.fileAt?, Option.map_some]

theorem FileSystem.exists_leads_of_fileAt? {data : FileData} (h : fs.fileAt? path = some data) :
    ∃ here, fs.Leads path here data := by
  unfold FileSystem.fileAt? at h
  split at h
  · cases h
  · next here hlocate =>
    split at h
    · next hentry =>
      cases h
      exact ⟨here, hlocate, hentry⟩
    · cases h

/-- A file that cannot be read may not be read, if it is there. -/
theorem Snapshot.filter_of_take_error {e : Fault} (h : take fs false path = .error e) :
    (fs.fileAt? path).filter (fun data => fs.mayRead data.permissions) = none := by
  rw [Option.filter_eq_none_iff]
  intro data hdata hreadable
  obtain ⟨here, hp⟩ := FileSystem.exists_leads_of_fileAt? hdata
  rw [Snapshot.take_of_holds ⟨hp, hreadable⟩] at h
  cases h

/-- A file that cannot be read is reported. -/
theorem Snapshot.unreadable_of_take (hnone : ∀ content, fs.read path ≠ .ok content) :
    ∃ e, take fs false path = .error e ∧ Unreadable fs path e := by
  unfold take
  rw [if_neg Bool.false_ne_true]
  cases hstatus : fs.status path with
  | error e => exact ⟨_, rfl, .status hstatus⟩
  | ok s =>
    dsimp only
    split
    · next hdir => exact ⟨_, rfl, .directory hstatus hdir⟩
    · cases hread : fs.read path with
      | ok content => exact absurd hread (hnone content)
      | error e => exact ⟨_, rfl, .content hread⟩

/-- Verifying notices every change of the content that shows in the size, in the time or in the digest. -/
theorem Snapshot.verify_of_changed {last : FileData} (hchanged : fs.contentAt? path ≠ some last.content)
    (htelling : ∀ s, fs.status path = .ok s → s.size = last.content.length → s.modified = last.modified →
      fs.contentAt? path = some last.content)
    (hdiscerned : ∀ content, fs.read path = .ok content → Digest.sha256 content = Digest.sha256 last.content →
      content = last.content) :
    ∃ e, (ofFile path last).verify fs false = .error e ∧ (e.isA .modifiedExternally = true ∨ Unreadable fs path e) := by
  unfold verify ofFile
  rw [if_neg Bool.false_ne_true]
  dsimp only
  cases hstatus : fs.status path with
  | error e =>
    dsimp only
    split
    · exact ⟨_, rfl, .inl (Fault.isA_filed ..)⟩
    · exact ⟨_, rfl, .inr (.stat hstatus)⟩
  | ok s =>
    dsimp only
    split
    · exact ⟨_, rfl, .inl (Fault.isA_filed ..)⟩
    · next hsize =>
      split
      · next htime => exact absurd (htelling s hstatus (Decidable.not_not.mp hsize) htime) hchanged
      · cases hread : fs.read path with
        | error e => exact ⟨_, rfl, .inr (.content hread)⟩
        | ok content =>
          dsimp only
          split
          · next hdigest =>
            rw [hdiscerned content hread hdigest] at hread
            exact absurd (FileSystem.contentAt?_of_read hread) hchanged
          · exact ⟨_, rfl, .inl (Fault.isA_filed ..)⟩

end Files

namespace Workspace

namespace Disk

variable {d d' : Disk} {fs fs' : FileSystem} {path content : Bytes} {cancelled : Bool} {result : Except Fault Unit}

/-- A file that has been fetched is remembered as it is. -/
theorem remembers_fetch {file : Tracked} (h : d.fetch fs cancelled path = .ok (file, d')) :
    ∃ here data, fs.Holds path here data ∧ file.path = path ∧ file.snapshot = .ofFile path data ∧
      d' = d.track file := by
  unfold fetch at h
  split at h
  · cases h
  · next htake =>
    cases h
    obtain ⟨here, data, hp, -, hsnapshot⟩ := Snapshot.exists_holds_of_take htake
    exact ⟨here, data, hp, rfl, hsnapshot, rfl⟩

theorem fetch_of_take_error {e : Fault} (h : Snapshot.take fs cancelled path = .error e) :
    d.fetch fs cancelled path = .error e := by
  unfold fetch
  rw [h]

theorem commit_of_verify_error {file : Tracked} {e : Fault} (h : file.snapshot.verify fs cancelled = .error e) :
    d.commit fs cancelled file content = (.error e, d, fs) := by
  unfold commit
  rw [h]

/-- A commit that succeeds remembers the file as it has been written; one that fails remembers nothing new. -/
theorem remembers_commit {file : Tracked} (h : d.commit fs cancelled file content = (result, d', fs')) :
    (result = .ok () ∧ ∃ here data, fs'.Holds file.path here data ∧
        (d'.file? file.path).map Tracked.snapshot = some (.ofFile file.path data)) ∨
      ((∃ e, result = .error e) ∧ d'.file? file.path = d.file? file.path) := by
  have hnoted (made : Bool) : (d.noted made file.path).file? file.path = d.file? file.path := by
    cases made <;> rfl
  unfold commit at h
  split at h
  · cases h
    exact .inr ⟨⟨_, rfl⟩, rfl⟩
  · split at h
    · cases h
      exact .inr ⟨⟨_, rfl⟩, rfl⟩
    · next made fs₁ hcreate =>
      dsimp only at h
      split at h
      · cases h
        exact .inr ⟨⟨_, rfl⟩, hnoted made⟩
      · split at h
        · cases h
          exact .inr ⟨⟨_, rfl⟩, hnoted made⟩
        · next htake =>
          cases h
          obtain ⟨here, data, hp, -, hsnapshot⟩ := Snapshot.exists_holds_of_take htake
          refine .inl ⟨rfl, here, data, hp, ?_⟩
          rw [file?_track, if_pos rfl, Option.map_some, hsnapshot]

end Disk

namespace Watch

variable {path : Bytes} {w : Watch}

namespace Mindful

variable (h : w.Mindful path)

include h

/-- What a disk works with when it overwrites a file. -/
theorem known (cancelled : Bool) :
    (∃ e, w.disk.known w.files cancelled path = .error e ∧ w.disk.file? path = none ∧ w.known path cancelled = w.seen) ∨
    ∃ file d last, w.disk.known w.files cancelled path = .ok (file, d) ∧ file.path = path ∧ d.dryRun = false ∧
      d.file? path = some file ∧ w.known path cancelled = some last ∧ file.snapshot = .ofFile path last := by
  have hremembers := h.remembers
  unfold Disk.known
  cases hfile : w.disk.file? path with
  | some file =>
    rw [hfile, Option.map_some] at hremembers
    obtain ⟨last, hlast, hsnapshot⟩ := Option.map_eq_some_iff.mp hremembers.symm
    refine .inr ⟨file, w.disk, last, rfl, Disk.path_of_file? hfile, h.writing, hfile, ?_, hsnapshot.symm⟩
    rw [Watch.known, hlast]
    cases cancelled <;> rfl
  | none =>
    rw [hfile, Option.map_none] at hremembers
    have hseen : w.seen = none := Option.map_eq_none_iff.mp hremembers.symm
    dsimp only
    cases hfetch : w.disk.fetch w.files cancelled path with
    | error e =>
      refine .inl ⟨e, rfl, rfl, ?_⟩
      rw [Watch.known, hseen]
      cases cancelled with
      | true => rfl
      | false =>
        have htake : Snapshot.take w.files false path = .error e := by
          unfold Disk.fetch at hfetch
          split at hfetch
          · next htake =>
            cases hfetch
            exact htake
          · cases hfetch
        exact Snapshot.filter_of_take_error htake
    | ok fetched =>
      obtain ⟨file, d⟩ := fetched
      obtain ⟨here, data, hp, hpath, hsnapshot, rfl⟩ := Disk.remembers_fetch hfetch
      obtain rfl : cancelled = false := by
        cases cancelled with
        | false => rfl
        | true => cases hfetch
      refine .inr ⟨file, w.disk.track file, data, rfl, hpath, ?_, ?_, ?_, hsnapshot⟩
      · rw [Disk.track_dryRun, h.writing]
      · rw [Disk.file?_track, if_pos hpath.symm]
      · rw [Watch.known, hseen, hp.fileAt?, Option.filter_some, if_pos hp.readable]
        rfl

/-- Reading the file remembers what is there, and reading another one nothing. -/
theorem read (target : Bytes) (cancelled : Bool) : (w.step path (.call (.read target cancelled))).Mindful path := by
  refine ⟨Disk.read_keeps.2.1.trans h.writing, ?_⟩
  show ((w.disk.read w.files cancelled target).2.file? path).map Tracked.snapshot =
    (w.shown path (.read target cancelled)).map (Snapshot.ofFile path)
  by_cases htarget : target = path
  · obtain rfl := htarget
    rw [shown, if_neg (not_not_intro rfl)]
    unfold Disk.read
    rw [h.writing, if_neg Bool.false_ne_true]
    cases hfetch : w.disk.fetch w.files cancelled target with
    | error e => exact h.remembers
    | ok fetched =>
      obtain ⟨file, d⟩ := fetched
      obtain ⟨here, data, hp, hpath, hsnapshot, rfl⟩ := Disk.remembers_fetch hfetch
      dsimp only
      rw [Disk.file?_track, if_pos hpath.symm, hp.fileAt?, Option.map_some, Option.map_some, hsnapshot]
  · rw [shown, if_pos htarget, Disk.file?_read_other htarget]
    exact h.remembers

/-- Overwriting the file remembers what was written, or what was there before. -/
theorem overwrite (target content : Bytes) (cancelled : Bool) :
    (w.step path (.call (.overwrite target content cancelled))).Mindful path := by
  refine ⟨(Disk.overwrite_cases rfl).2.1.trans h.writing, ?_⟩
  show ((w.disk.overwrite w.files cancelled target content).2.1.file? path).map Tracked.snapshot =
    (w.shown path (.overwrite target content cancelled)).map (Snapshot.ofFile path)
  by_cases htarget : target = path
  · obtain rfl := htarget
    rw [shown, if_neg (not_not_intro rfl), Disk.overwrite_eq]
    obtain ⟨e, hknown, hnone, hseen⟩ | ⟨file, d, last, hknown, rfl, hwriting, hfile, hlast, hsnapshot⟩ := h.known cancelled
    · rw [hknown]
      dsimp only
      rw [hseen]
      exact h.remembers
    · rw [hknown]
      dsimp only
      rw [hwriting, if_neg Bool.false_ne_true]
      generalize hcommit : d.commit w.files cancelled file content = done
      obtain ⟨result, d', fs'⟩ := done
      obtain ⟨rfl, here, data, hp, hremembers⟩ | ⟨⟨e, rfl⟩, hsame⟩ := Disk.remembers_commit hcommit
      · dsimp only
        rw [hremembers, hp.fileAt?]
        rfl
      · dsimp only
        rw [hsame, hfile, hlast, Option.map_some, Option.map_some, hsnapshot]
  · rw [shown, if_pos htarget, Disk.file?_overwrite_other cancelled content htarget]
    exact h.remembers

theorem step (event : Event) : (w.step path event).Mindful path := by
  cases event with
  | outside files => exact ⟨h.writing, h.remembers⟩
  | call request =>
    cases request with
    | read target cancelled => exact h.read target cancelled
    | overwrite target content cancelled => exact h.overwrite target content cancelled

end Mindful

theorem mindful_run (policy : BackupPolicy) (files : FileSystem) (events : List Event) :
    ((start policy files).run path events).Mindful path := by
  have hrun (w : Watch) (h : w.Mindful path) : (w.run path events).Mindful path := by
    induction events generalizing w with
    | nil => exact h
    | cons event events ih => exact ih _ (h.step event)
  exact hrun _ ⟨rfl, rfl⟩

/-- A file that is not as the disk last saw it is not overwritten. -/
theorem Mindful.refused (h : w.Mindful path) (htelling : w.Telling path) (hdiscerned : w.Discerned path)
    (hchanged : ¬w.Current path) (content : Bytes) (cancelled : Bool) :
    ∃ e d, w.disk.overwrite w.files cancelled path content = (.error e, d, w.files) ∧
      if cancelled then e.isA .cancelled = true else e.isA .modifiedExternally = true ∨ Unreadable w.files path e := by
  have hremembers := h.remembers
  rw [Disk.overwrite_eq, Disk.known]
  cases hfile : w.disk.file? path with
  | none =>
    rw [hfile, Option.map_none] at hremembers
    have hseen : w.seen = none := Option.map_eq_none_iff.mp hremembers.symm
    obtain ⟨e, htake, hkind⟩ : ∃ e, Snapshot.take w.files cancelled path = .error e ∧
        if cancelled then e.isA .cancelled = true else e.isA .modifiedExternally = true ∨ Unreadable w.files path e := by
      cases cancelled with
      | true => exact ⟨_, rfl, by simp [Fault.isA, Fault.leaves]⟩
      | false =>
        rw [Current, hseen] at hchanged
        obtain ⟨e, htake, hkind⟩ := Snapshot.unreadable_of_take fun content hread => hchanged ⟨content, hread⟩
        exact ⟨e, htake, .inr hkind⟩
    dsimp only
    rw [Disk.fetch_of_take_error htake]
    exact ⟨e, _, rfl, hkind⟩
  | some file =>
    rw [hfile, Option.map_some] at hremembers
    obtain ⟨last, hlast, hsnapshot⟩ := Option.map_eq_some_iff.mp hremembers.symm
    obtain ⟨e, hverify, hkind⟩ : ∃ e, (Snapshot.ofFile path last).verify w.files cancelled = .error e ∧
        if cancelled then e.isA .cancelled = true else e.isA .modifiedExternally = true ∨ Unreadable w.files path e := by
      cases cancelled with
      | true => exact ⟨_, rfl, by simp [Fault.isA, Fault.leaves]⟩
      | false =>
        rw [Current, hlast] at hchanged
        exact Snapshot.verify_of_changed hchanged (fun s => htelling last s hlast) fun content =>
          hdiscerned last content hlast
    dsimp only
    rw [h.writing, if_neg Bool.false_ne_true, Disk.commit_of_verify_error (hsnapshot ▸ hverify)]
    exact ⟨e, _, rfl, hkind⟩

section Single

/-- A file `b` with some content and time, and nothing else. -/
def single (content : Bytes) (modified clock : Nat) : FileSystem :=
  ⟨[([bytes "b"], .file ⟨content, 0o644, modified⟩)], clock, some [], false⟩

variable (content : Bytes) (modified clock : Nat)

theorem single_holds : (single content modified clock).Holds "b" [bytes "b"] ⟨content, 0o644, modified⟩ :=
  ⟨⟨fromRoot_b.locate_file rfl .thing rfl, rfl⟩, FileSystem.mayRead_default _⟩

theorem single_replace (new : Bytes) :
    (single content modified clock).replace false "b" new 0o644 = .ok (single new (clock + 1) (clock + 1)) := by
  have htemp : FromRoot (Path.beside "b" ".tmp.0123456789") (bytes "b.tmp.0123456789") [] :=
    ⟨by decide, .inr (by decide), by decide, by decide, by decide⟩
  have hreach : (single content modified clock).Reachable "b" := ⟨_, htemp.locate_none rfl .place rfl⟩
  have hslot : (single content modified clock).locate .slot "b" = .ok [bytes "b"] := fromRoot_b.locate_file rfl .slot rfl
  refine (FileSystem.replace_eq_ok false).mpr ⟨rfl, hreach, _, hslot, ?_, rfl⟩
  intro hentry
  cases hentry

/-- The disk has read the file, and then others have been at it. -/
theorem run_single (policy : BackupPolicy) (files : FileSystem) :
    (start policy (single "x" 0 0)).run "b" [.call (.read "b" false), .outside files] =
      ⟨(Disk.start false policy).track ⟨"b", "x", "x", .ofFile "b" ⟨"x", 0o644, 0⟩⟩, files, some ⟨"x", 0o644, 0⟩⟩ := by
  have hread := Disk.read_fresh (d := .start false policy) rfl (single_holds "x" 0 0)
  have hshown : (start policy (single "x" 0 0)).shown "b" (.read "b" false) = some ⟨"x", 0o644, 0⟩ := by
    rw [shown, if_neg (not_not_intro rfl)]
    show (match (Disk.read (.start false policy) (single "x" 0 0) false "b").1 with
      | .ok _ => (single "x" 0 0).fileAt? "b"
      | .error _ => _) = _
    rw [hread]
    exact (single_holds "x" 0 0).fileAt?
  show Watch.mk (Disk.read (.start false policy) (single "x" 0 0) false "b").2 files
    ((start policy (single "x" 0 0)).shown "b" (.read "b" false)) = _
  rw [hread, hshown]

/-- A file that passes is overwritten, when no backups are kept. -/
theorem overwrite_single {content : Bytes} {modified clock : Nat}
    (hverify : (Snapshot.ofFile "b" ⟨"x", 0o644, 0⟩).verify (single content modified clock) false = .ok ()) (new : Bytes) :
    (((Disk.start false ⟨false, "sidecar"⟩).track ⟨"b", "x", "x", .ofFile "b" ⟨"x", 0o644, 0⟩⟩).overwrite
      (single content modified clock) false "b" new).1 = .ok () := by
  rw [Disk.overwrite_eq, Disk.known, Disk.file?_track, if_pos rfl]
  dsimp only
  rw [Disk.track_dryRun, if_neg (by simp [Disk.start])]
  have hcreate : Backup.create (single content modified clock) false "b"
      (Disk.track (.start false ⟨false, "sidecar"⟩) ⟨"b", "x", "x", .ofFile "b" ⟨"x", 0o644, 0⟩⟩).policy =
        .ok (false, single content modified clock) := by
    rw [Disk.track_policy]
    rfl
  let file : Tracked := ⟨"b", "x", "x", .ofFile "b" ⟨"x", 0o644, 0⟩⟩
  have hreplace : (single content modified clock).replace false file.path new file.snapshot.permissions = _ :=
    single_replace content modified clock new
  have hnew : (single new (clock + 1) (clock + 1)).Holds file.path _ _ := single_holds new _ _
  have hverified : file.snapshot.verify (single content modified clock) false = .ok () := hverify
  have hcommit := Disk.commit_of_verify _ hverified hcreate hreplace hnew
  exact congrArg Prod.fst hcommit

end Single

/-- Whatever the disk and others have done, a file is overwritten only while it is as the disk last saw it. In any
other case the call reports the change, or that the file cannot be read, and leaves all files alone. -/
theorem overwrite_current (path : Bytes) (policy : BackupPolicy) (files : FileSystem) (events : List Event)
    (content : Bytes) (cancelled : Bool) :
    let w := (start policy files).run path events
    w.Telling path → w.Discerned path →
      ((w.disk.overwrite w.files cancelled path content).1 = .ok () → w.Current path) ∧
      (¬w.Current path → ∃ e d, w.disk.overwrite w.files cancelled path content = (.error e, d, w.files) ∧
        if cancelled then e.isA .cancelled = true
        else e.isA .modifiedExternally = true ∨ Unreadable w.files path e) := by
  intro w htelling hdiscerned
  have hrefused (hchanged : ¬w.Current path) :=
    (mindful_run policy files events).refused htelling hdiscerned hchanged content cancelled
  refine ⟨fun hok => ?_, hrefused⟩
  apply Classical.byContradiction
  intro hchanged
  obtain ⟨e, d, hrun, -⟩ := hrefused hchanged
  rw [hrun] at hok
  cases hok

/-- A file that others have only touched is overwritten, and one that they have edited is not. -/
theorem overwrite_current_single :
    let watch (files : FileSystem) : Watch :=
      (start ⟨false, "sidecar"⟩ (single "x" 0 0)).run "b" [.call (.read "b" false), .outside files]
    let touched := watch (single "x" 5 5)
    let edited := watch (single "yy" 5 5)
    ((touched.Telling "b" ∧ touched.Discerned "b") ∧ edited.Telling "b" ∧ edited.Discerned "b") ∧
      ((touched.disk.overwrite touched.files false "b" "z").1 = .ok () ∧ touched.Current "b") ∧
      ∃ e d, edited.disk.overwrite edited.files false "b" "z" = (.error e, d, edited.files) ∧
        (e.isA .modifiedExternally = true ∨ Unreadable edited.files "b" e) := by
  intro watch touched edited
  have hrun (files : FileSystem) : watch files = _ := run_single ⟨false, "sidecar"⟩ files
  have hstill := single_holds "x" 5 5
  have hlonger := single_holds "yy" 5 5
  have htouched : touched.Telling "b" ∧ touched.Discerned "b" := by
    rw [show touched = _ from hrun _]
    constructor
    · rintro _ s ⟨⟩ - - -
      exact FileSystem.contentAt?_of_read hstill.read
    · rintro _ content ⟨⟩ hread -
      exact Except.ok.inj (hread.symm.trans hstill.read)
  have hedited : edited.Telling "b" ∧ edited.Discerned "b" := by
    rw [show edited = _ from hrun _]
    constructor
    · rintro _ s ⟨⟩ hstatus hsize -
      rw [← Except.ok.inj (hlonger.status.symm.trans hstatus)] at hsize
      cases hsize
    · rintro _ content ⟨⟩ hread hdigest
      obtain rfl := Except.ok.inj (hlonger.read.symm.trans hread)
      exact absurd hdigest (by decide +kernel)
  have hchanged : ¬edited.Current "b" := by
    rw [show edited = _ from hrun _]
    intro hcurrent
    have hsame : some (bytes "yy") = some (bytes "x") := (FileSystem.contentAt?_of_read hlonger.read).symm.trans hcurrent
    cases hsame
  have hok : (touched.disk.overwrite touched.files false "b" "z").1 = .ok () := by
    rw [show touched = _ from hrun _]
    exact overwrite_single (Snapshot.verify_of_content hstill rfl) "z"
  obtain ⟨hcurrent, -⟩ := overwrite_current "b" ⟨false, "sidecar"⟩ (single "x" 0 0)
    [.call (.read "b" false), .outside (single "x" 5 5)] "z" false htouched.1 htouched.2
  obtain ⟨-, hrefused⟩ := overwrite_current "b" ⟨false, "sidecar"⟩ (single "x" 0 0)
    [.call (.read "b" false), .outside (single "yy" 5 5)] "z" false hedited.1 hedited.2
  exact ⟨⟨htouched, hedited⟩, ⟨hok, hcurrent hok⟩, hrefused hchanged⟩

/-- Two edits, each of another size than before, can hide each other from a disk that compares sizes first. -/
theorem overwrite_disguised :
    let longer := single "yy" 0 1
    let other := single "z" 0 2
    let w := (start ⟨false, "sidecar"⟩ (single "x" 0 0)).run "b" [.call (.read "b" false), .outside longer, .outside other]
    ((∃ before after, (single "x" 0 0).fileAt? "b" = some before ∧ longer.fileAt? "b" = some after ∧
        before.content.length ≠ after.content.length) ∧
      ∃ before after, longer.fileAt? "b" = some before ∧ other.fileAt? "b" = some after ∧
        before.content.length ≠ after.content.length) ∧
    w.Discerned "b" ∧ ¬w.Current "b" ∧ (w.disk.overwrite w.files false "b" "w").1 = .ok () := by
  intro longer other w
  have hrun : w = _ := run_single ⟨false, "sidecar"⟩ other
  have hother := single_holds "z" 0 2
  refine ⟨⟨⟨_, _, (single_holds "x" 0 0).fileAt?, (single_holds "yy" 0 1).fileAt?, by decide⟩, _, _,
    (single_holds "yy" 0 1).fileAt?, hother.fileAt?, by decide⟩, ?_, ?_, ?_⟩
  · rw [hrun]
    rintro _ content ⟨⟩ hread hdigest
    obtain rfl := Except.ok.inj (hother.read.symm.trans hread)
    exact absurd hdigest (by decide +kernel)
  · rw [hrun]
    intro hcurrent
    have hsame : some (bytes "z") = some (bytes "x") := (FileSystem.contentAt?_of_read hother.read).symm.trans hcurrent
    cases hsame
  · rw [hrun]
    exact overwrite_single (Snapshot.verify_of_leads hother.toLeads rfl rfl) "w"

end Watch

end Workspace

end Codemod
