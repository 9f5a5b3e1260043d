import Codemod.Workspace.Disk
import Codemod.Proofs.Files.Backup

namespace Codemod.Workspace

open Files

/-- What is asked of a disk. -/
inductive Request where
  | read (path : Bytes) (cancelled : Bool)
  | overwrite (path content : Bytes) (cancelled : Bool)
  deriving DecidableEq, Repr

inductive Reply where
  | content (result : Except Fault Bytes)
  | done (result : Except Fault Unit)

namespace Request

def path : Request → Bytes
  | read path _ => path
  | overwrite path _ _ => path

def cancelled : Request → Bool
  | read _ cancelled => cancelled
  | overwrite _ _ cancelled => cancelled

def run (request : Request) (d : Disk) (fs : FileSystem) : Reply × Disk × FileSystem :=
  match request with
  | read path cancelled => ((.content (d.read fs cancelled path).1), (d.read fs cancelled path).2, fs)
  | overwrite path content cancelled =>
    ((.done (d.overwrite fs cancelled path content).1), (d.overwrite fs cancelled path content).2)

end Request

namespace Disk

section Tracking

variable (d : Disk) (file : Tracked)

@[simp] theorem track_dryRun : (d.track file).dryRun = d.dryRun := by unfold track; split <;> rfl

@[simp] theorem track_policy : (d.track file).policy = d.policy := by unfold track; split <;> rfl

@[simp] theorem track_backups : (d.track file).backups = d.backups := by unfold track; split <;> rfl

theorem path_of_file? {d : Disk} {path : Bytes} {file : Tracked} (h : d.file? path = some file) : file.path = path := by
  simpa using List.find?_some h

theorem file?_track (path : Bytes) :
    (d.track file).file? path = if path = file.path then some file else d.file? path := by
  unfold track
  cases hold : d.file? file.path with
  | some old =>
    rw [Option.isSome_some, if_pos rfl]
    have hmap : d.tracked.find? (fun t => (if t.path = file.path then file else t).path = path) = d.file? path := by
      unfold file?
      congr 1
      funext t
      split
      · next ht => rw [ht]
      · rfl
    show (d.tracked.map fun t => if t.path = file.path then file else t).find? (·.path = path) = _
    rw [List.find?_map]
    show (d.tracked.find? fun t => (if t.path = file.path then file else t).path = path).map _ = _
    rw [hmap]
    by_cases hpath : path = file.path
    · rw [hpath, hold, if_pos rfl, Option.map_some, if_pos (path_of_file? hold)]
    · rw [if_neg hpath]
      cases ht : d.file? path with
      | none => rfl
      | some t => rw [Option.map_some, if_neg (fun h => hpath ((path_of_file? ht).symm.trans h))]
  | none =>
    rw [Option.isSome_none, if_neg (by simp)]
    unfold file? at hold ⊢
    rw [List.find?_append]
    by_cases hpath : path = file.path
    · rw [hpath, hold, if_pos rfl]
      simp
    · rw [if_neg hpath]
      have hnew : [file].find? (·.path = path) = none := by simpa using Ne.symm hpath
      rw [hnew, Option.or_none]

end Tracking

section Reading

variable {d d' : Disk} {fs fs' : FileSystem} {cancelled : Bool} {path q content : Bytes}

theorem fetch_cases {file : Tracked} (h : d.fetch fs cancelled path = .ok (file, d')) :
    file.path = path ∧ d' = d.track file := by
  unfold fetch at h
  split at h
  · cases h
  · cases h
    exact ⟨rfl, rfl⟩

/-- What reading leaves alone. -/
theorem read_keeps : (d.read fs cancelled path).2.policy = d.policy ∧ (d.read fs cancelled path).2.dryRun = d.dryRun ∧
    (d.read fs cancelled path).2.backups = d.backups := by
  unfold read
  dsimp only
  split
  · exact ⟨rfl, rfl, rfl⟩
  · split
    · next hfetch =>
      obtain ⟨-, rfl⟩ := fetch_cases hfetch
      simp
    · exact ⟨rfl, rfl, rfl⟩

/-- The list of backups goes on with a file. -/
def noted (d : Disk) (made : Bool) (path : Bytes) : Disk :=
  if made then { d with backups := d.backups ++ [path] } else d

/-- The commit of a file that passes as last seen, when nothing stands in its way. -/
theorem commit_of_verify (d : Disk) {file : Tracked} {now : Location} {new : FileData}
    (hverify : file.snapshot.verify fs false = .ok ()) {made : Bool} {fs₁ : FileSystem}
    (hcreate : Backup.create fs false file.path d.policy = .ok (made, fs₁))
    (hreplace : fs₁.replace false file.path content file.snapshot.permissions = .ok fs')
    (hnew : fs'.Holds file.path now new) :
    d.commit fs false file content =
      (.ok (), (d.noted made file.path).track { file with latest := content, snapshot := .ofFile file.path new }, fs') := by
  unfold commit
  rw [hverify]
  dsimp only
  rw [hcreate]
  dsimp only
  rw [hreplace]
  dsimp only
  rw [Snapshot.take_of_holds hnew]
  rfl

/-- The commit of a file that is as it was last seen. -/
theorem commit_eq (d : Disk) {file : Tracked} {here now : Location} {data new : FileData}
    (hp : fs.Leads file.path here data) (hsnapshot : file.snapshot = .ofFile file.path data) {made : Bool}
    {fs₁ : FileSystem} (hcreate : Backup.create fs false file.path d.policy = .ok (made, fs₁))
    (hreplace : fs₁.replace false file.path content data.permissions = .ok fs') (hnew : fs'.Holds file.path now new) :
    d.commit fs false file content =
      (.ok (), (d.noted made file.path).track { file with latest := content, snapshot := .ofFile file.path new }, fs') := by
  apply d.commit_of_verify _ hcreate _ hnew
  · rw [hsnapshot]
    exact Snapshot.verify_ofFile hp
  · rw [hsnapshot]
    exact hreplace

/-- A tracked file is left alone, or it is backed up and then replaced, if all goes well. -/
theorem commit_cases {file : Tracked} {result : Except Fault Unit}
    (h : d.commit fs cancelled file content = (result, d', fs')) :
    (fs' = fs ∧ d' = d ∧ result ≠ .ok ()) ∨
    ∃ made fs₁, Backup.create fs cancelled file.path d.policy = .ok (made, fs₁) ∧
      d'.policy = d.policy ∧ d'.dryRun = d.dryRun ∧
      d'.backups = (if made then d.backups ++ [file.path] else d.backups) ∧
      ((fs' = fs₁ ∧ result ≠ .ok ()) ∨
        fs₁.replace cancelled file.path content file.snapshot.permissions = .ok fs' ∧
          (result = .ok () ∨ ∃ e, Snapshot.take fs' cancelled file.path = .error e)) := by
  unfold commit at h
  split at h
  · cases h
    exact .inl ⟨rfl, rfl, by simp⟩
  · split at h
    · cases h
      exact .inl ⟨rfl, rfl, by simp⟩
    · next made fs₁ hcreate =>
      refine .inr ⟨made, fs₁, hcreate, ?_⟩
      dsimp only at h
      split at h
      · cases h
        cases made <;> exact ⟨rfl, rfl, rfl, .inl ⟨rfl, by simp⟩⟩
      · next fs₂ hreplace =>
        split at h
        · next e htake =>
          cases h
          cases made <;> exact ⟨rfl, rfl, rfl, .inr ⟨hreplace, .inr ⟨e, htake⟩⟩⟩
        · cases h
          cases made <;> exact ⟨by simp, by simp, by simp, .inr ⟨hreplace, .inl rfl⟩⟩

/-- A file that is tracked, or fetched to be. -/
def known (d : Disk) (fs : FileSystem) (cancelled : Bool) (path : Bytes) : Except Fault (Tracked × Disk) :=
  match d.file? path with
  | some file => .ok (file, d)
  | none => d.fetch fs cancelled path

theorem overwrite_eq (d : Disk) (fs : FileSystem) (cancelled : Bool) (path content : Bytes) :
    d.overwrite fs cancelled path content = match d.known fs cancelled path with
      | .error e => (.error e, d, fs)
      | .ok (file, d) =>
        if d.dryRun then (.ok (), d.track { file with latest := content }, fs) else d.commit fs cancelled file content :=
  rfl

theorem known_cases {file : Tracked} (h : d.known fs cancelled path = .ok (file, d')) :
    file.path = path ∧ d'.policy = d.policy ∧ d'.dryRun = d.dryRun ∧ d'.backups = d.backups := by
  unfold known at h
  split at h
  · next hfile =>
    cases h
    exact ⟨path_of_file? hfile, rfl, rfl, rfl⟩
  · obtain ⟨hpath, rfl⟩ := fetch_cases h
    exact ⟨hpath, track_policy d file, track_dryRun d file, track_backups d file⟩

/-- A file that was not tracked. -/
theorem fetch_fresh (hfresh : d.file? path = none) {here : Location} {data : FileData} (hp : fs.Holds path here data) :
    d.fetch fs false path = .ok (⟨path, data.content, data.content, .ofFile path data⟩,
      d.track ⟨path, data.content, data.content, .ofFile path data⟩) := by
  unfold fetch
  rw [hfresh, Snapshot.take_of_holds hp]
  rfl

theorem read_fresh (hfresh : d.file? path = none) {here : Location} {data : FileData} (hp : fs.Holds path here data) :
    d.read fs false path = (.ok data.content, d.track ⟨path, data.content, data.content, .ofFile path data⟩) := by
  unfold read
  rw [hfresh, fetch_fresh hfresh hp, ite_self]

theorem read_failing (hfresh : d.dryRun = true → d.file? path = none) {e : Fault}
    (htake : Snapshot.take fs cancelled path = .error e) : d.read fs cancelled path = (.error e, d) := by
  have hpending : (if d.dryRun then d.file? path else none) = none := by
    split
    · next hdry => exact hfresh hdry
    · rfl
  unfold read
  rw [hpending]
  unfold fetch
  rw [htake]

theorem known_fresh (hfresh : d.file? path = none) {here : Location} {data : FileData} (hp : fs.Holds path here data) :
    d.known fs false path = .ok (⟨path, data.content, data.content, .ofFile path data⟩,
      d.track ⟨path, data.content, data.content, .ofFile path data⟩) := by
  unfold known
  rw [hfresh]
  exact fetch_fresh hfresh hp

theorem overwrite_dry (hdry : d.dryRun = true) (hfresh : d.file? path = none) {here : Location} {data : FileData}
    (hp : fs.Holds path here data) : d.overwrite fs false path content =
      (.ok (), (d.track ⟨path, data.content, data.content, .ofFile path data⟩).track
        ⟨path, data.content, content, .ofFile path data⟩, fs) := by
  rw [overwrite_eq, known_fresh hfresh hp]
  dsimp only
  rw [track_dryRun, if_pos hdry]

/-- The first overwriting of a file, when nothing stands in its way. -/
theorem overwrite_eq_ok (hwriting : d.dryRun = false) (hfresh : d.file? path = none) {here now : Location}
    {data new : FileData} (hp : fs.Holds path here data) {made : Bool} {fs₁ : FileSystem}
    (hcreate : Backup.create fs false path d.policy = .ok (made, fs₁))
    (hreplace : fs₁.replace false path content data.permissions = .ok fs') (hnew : fs'.Holds path now new) :
    d.overwrite fs false path content =
      (.ok (), ((d.track ⟨path, data.content, data.content, .ofFile path data⟩).noted made path).track
        ⟨path, data.content, content, .ofFile path new⟩, fs') := by
  rw [overwrite_eq, known_fresh hfresh hp]
  dsimp only
  rw [track_dryRun, if_neg (by simp [hwriting])]
  rw [← track_policy d] at hcreate
  exact commit_eq _ hp.toLeads rfl hcreate hreplace hnew

/-- What is remembered of files comes from readings of them. -/
def Readable (d : Disk) (fs : FileSystem) : Prop :=
  ∀ path file, d.file? path = some file → fs.mayRead file.snapshot.permissions = true

theorem readable_start (dryRun : Bool) (policy : BackupPolicy) (fs : FileSystem) : (start dryRun policy).Readable fs := nofun

theorem mayRead_of_take {content : Bytes} {snapshot : Snapshot} (h : Snapshot.take fs cancelled path = .ok (content, snapshot)) :
    fs.mayRead snapshot.permissions = true := by
  obtain ⟨here, data, hp, -, rfl⟩ := Snapshot.exists_holds_of_take h
  exact hp.readable

namespace Readable

variable {file : Tracked}

theorem congr (h : d.Readable fs) (hprivileged : fs'.privileged = fs.privileged) : d.Readable fs' :=
  fun q t ht => FileSystem.mayRead_congr hprivileged (h q t ht)

theorem track (h : d.Readable fs) (hfile : fs.mayRead file.snapshot.permissions = true) : (d.track file).Readable fs := by
  intro q t ht
  rw [file?_track] at ht
  split at ht
  · cases ht
    exact hfile
  · exact h q t ht

theorem noted (h : d.Readable fs) (made : Bool) (q : Bytes) : (d.noted made q).Readable fs := by
  cases made <;> exact h

theorem fetch (h : d.Readable fs) (hfetch : d.fetch fs cancelled path = .ok (file, d')) :
    fs.mayRead file.snapshot.permissions = true ∧ d'.Readable fs := by
  unfold Disk.fetch at hfetch
  split at hfetch
  · cases hfetch
  · next htake =>
    cases hfetch
    have hfile := mayRead_of_take htake
    exact ⟨hfile, h.track hfile⟩

theorem known (h : d.Readable fs) (hknown : d.known fs cancelled path = .ok (file, d')) :
    fs.mayRead file.snapshot.permissions = true ∧ d'.Readable fs := by
  unfold Disk.known at hknown
  split at hknown
  · next hfile =>
    cases hknown
    exact ⟨h path file hfile, h⟩
  · exact h.fetch hknown

theorem read (h : d.Readable fs) (cancelled : Bool) (path : Bytes) : (d.read fs cancelled path).2.Readable fs := by
  unfold Disk.read
  dsimp only
  split
  · exact h
  · split
    · next hfetch => exact (h.fetch hfetch).2
    · exact h

end Readable

/-- All that overwriting can do. -/
theorem overwrite_cases {result : Except Fault Unit} (h : d.overwrite fs cancelled path content = (result, d', fs')) :
    d'.policy = d.policy ∧ d'.dryRun = d.dryRun ∧
    ((fs' = fs ∧ d'.backups = d.backups ∧ (result = .ok () → d.dryRun = true)) ∨
    (d.dryRun = false ∧ ∃ made fs₁, Backup.create fs cancelled path d.policy = .ok (made, fs₁) ∧
      d'.backups = (if made then d.backups ++ [path] else d.backups) ∧
      ((fs' = fs₁ ∧ result ≠ .ok ()) ∨ ∃ permissions, (d.Readable fs → fs₁.mayRead permissions = true) ∧
        fs₁.replace cancelled path content permissions = .ok fs' ∧
        (result = .ok () ∨ ∃ e, Snapshot.take fs' cancelled path = .error e)))) := by
  rw [overwrite_eq] at h
  split at h
  · cases h
    exact ⟨rfl, rfl, .inl ⟨rfl, rfl, by simp⟩⟩
  · next file d₁ hknown =>
    have hmode (hreadable : d.Readable fs) := (hreadable.known hknown).1
    obtain ⟨rfl, hpolicy, hdry, hbackups⟩ := known_cases hknown
    rw [← hpolicy, ← hdry, ← hbackups]
    split at h
    · next hd =>
      cases h
      exact ⟨track_policy _ _, track_dryRun _ _, .inl ⟨rfl, track_backups _ _, fun _ => hd⟩⟩
    · next hd =>
      obtain ⟨rfl, rfl, hresult⟩ | ⟨made, fs₁, hcreate, hpolicy', hdry', hbackups', hwrite⟩ := commit_cases h
      · exact ⟨rfl, rfl, .inl ⟨rfl, rfl, fun hok => absurd hok hresult⟩⟩
      · refine ⟨hpolicy', hdry', .inr ⟨by simpa using hd, made, fs₁, hcreate, hbackups', ?_⟩⟩
        exact hwrite.imp_right fun hreplace =>
          ⟨_, fun hreadable => FileSystem.mayRead_congr (Backup.privileged_create hcreate) (hmode hreadable), hreplace⟩

theorem privileged_overwrite {result : Except Fault Unit} (h : d.overwrite fs cancelled path content = (result, d', fs')) :
    fs'.privileged = fs.privileged := by
  obtain ⟨-, -, ⟨rfl, -⟩ | ⟨-, made, fs₁, hcreate, -, hwrite⟩⟩ := overwrite_cases h
  · rfl
  · have hbacked := Backup.privileged_create hcreate
    obtain ⟨rfl, -⟩ | ⟨permissions, -, hreplace, -⟩ := hwrite
    · exact hbacked
    · exact (FileSystem.privileged_replace hreplace).trans hbacked

/-- What is remembered goes on coming from readings. -/
theorem Readable.overwrite {result : Except Fault Unit} (hreadable : d.Readable fs)
    (h : d.overwrite fs cancelled path content = (result, d', fs')) : d'.Readable fs' := by
  have hprivileged := privileged_overwrite h
  rw [overwrite_eq] at h
  split at h
  · cases h
    exact hreadable
  · next file d₁ hknown =>
    obtain ⟨hfile, hd₁⟩ := hreadable.known hknown
    split at h
    · cases h
      exact hd₁.track hfile
    · unfold commit at h
      split at h
      · cases h
        exact hd₁
      · split at h
        · cases h
          exact hd₁
        · next made fs₁ _ =>
          have hnoted := hd₁.noted made file.path
          dsimp only at h
          split at h
          · cases h
            exact hnoted.congr hprivileged
          · split at h
            · cases h
              exact hnoted.congr hprivileged
            · next htake =>
              cases h
              exact (hnoted.congr hprivileged).track (mayRead_of_take htake)

/-- What a reading answers: the latest content in a dry run, if there is one, or what is on disk. -/
theorem read_result (d : Disk) (fs : FileSystem) (path : Bytes) : (d.read fs false path).1 =
    match if d.dryRun then d.file? path else none with
    | some file => .ok file.latest
    | none => (Snapshot.take fs false path).map Prod.fst := by
  unfold read
  cases (if d.dryRun = true then d.file? path else none) with
  | some file => rfl
  | none =>
    unfold fetch
    cases Snapshot.take fs false path with
    | error e => rfl
    | ok taken => rfl

theorem file?_read_other (hq : q ≠ path) (d : Disk) (fs : FileSystem) :
    (d.read fs cancelled q).2.file? path = d.file? path := by
  unfold read
  dsimp only
  split
  · rfl
  · split
    · next hfetch =>
      obtain ⟨hpath, rfl⟩ := fetch_cases hfetch
      rw [file?_track, if_neg (by rw [hpath]; exact Ne.symm hq)]
    · rfl

/-- To read a file again is to read the same. -/
theorem read_again (d : Disk) (fs : FileSystem) (q path : Bytes) :
    ((d.read fs false q).2.read fs false path).1 = (d.read fs false path).1 := by
  rw [read_result, read_result, read_keeps.2.1]
  by_cases hq : q = path
  · subst hq
    cases hdry : d.dryRun with
    | false => rfl
    | true =>
      simp only [if_true]
      unfold read
      rw [hdry, if_pos rfl]
      cases hfile : d.file? q with
      | some file =>
        dsimp only
        rw [hfile]
      | none =>
        unfold fetch
        cases htake : Snapshot.take fs false q with
        | error e =>
          dsimp only
          rw [hfile]
        | ok taken =>
          dsimp only
          rw [file?_track, if_pos rfl]
          rfl
  · rw [file?_read_other hq]

theorem file?_commit_other (d : Disk) (fs : FileSystem) {file : Tracked} (hfile : file.path ≠ path) :
    (d.commit fs cancelled file content).2.1.file? path = d.file? path := by
  have hbackups (made : Bool) : Disk.file? (if made then { d with backups := d.backups ++ [file.path] } else d) path =
      d.file? path := by
    cases made <;> rfl
  unfold commit
  split
  · rfl
  · split
    · rfl
    · dsimp only
      split
      · exact hbackups _
      · split
        · exact hbackups _
        · rw [file?_track, if_neg (Ne.symm hfile)]
          exact hbackups _

theorem file?_overwrite_other (cancelled : Bool) (content : Bytes) (hq : q ≠ path) (d : Disk) (fs : FileSystem) :
    (d.overwrite fs cancelled q content).2.1.file? path = d.file? path := by
  have hknown {file : Tracked} {d₁ : Disk} (h : d.known fs cancelled q = .ok (file, d₁)) :
      file.path = q ∧ d₁.file? path = d.file? path := by
    unfold known at h
    split at h
    · next hfile =>
      cases h
      exact ⟨path_of_file? hfile, rfl⟩
    · obtain ⟨hpath, rfl⟩ := fetch_cases h
      rw [file?_track, if_neg (by rw [hpath]; exact Ne.symm hq)]
      exact ⟨hpath, rfl⟩
  rw [overwrite_eq]
  split
  · rfl
  · next file d₁ h =>
    obtain ⟨rfl, hfile⟩ := hknown h
    split
    · rw [file?_track, if_neg (Ne.symm hq), hfile]
    · rw [file?_commit_other d₁ fs hq, hfile]

end Reading

end Disk

section Lone

/-- A file `b` and nothing else. -/
def lone : FileSystem := ⟨[([bytes "b"], .file ⟨"x", 0o644, 0⟩)], 0, some [], false⟩

/-- With a backup of it. -/
def loneBacked : FileSystem :=
  ⟨[([bytes "b"], .file ⟨"x", 0o644, 0⟩), ([bytes "b.ngmigrate.bak"], .file ⟨"x", 0o644, 1⟩)], 1, some [], false⟩

/-- And then overwritten. -/
def loneWritten : FileSystem :=
  ⟨[([bytes "b"], .file ⟨"y", 0o644, 2⟩), ([bytes "b.ngmigrate.bak"], .file ⟨"x", 0o644, 1⟩)], 2, some [], false⟩

theorem lone_grounded : lone.Grounded := by
  rintro here ⟨⟩
  exact FileSystem.ground_nil

/-- A path of some names from the root. -/
structure FromRoot (path : Bytes) (name : Bytes) (rest : List Bytes) : Prop where
  relative : path.isEmpty = false ∧ Path.isAbsolute path = false
  names : FileSystem.pathNames path = name :: rest ∨ FileSystem.pathNames path = bytes "." :: name :: rest
  proper : FileSystem.Proper name

namespace FromRoot

variable {path name : Bytes} {rest : List Bytes} (h : FromRoot path name rest) {fs : FileSystem}
  (hfs : fs.workplace = some []) (aim : Aim)

include h hfs

theorem locate_eq : fs.locate aim path = fs.follow aim FileSystem.linkLimit [] (name :: rest) := by
  have hstart : fs.start? path = some [] := by
    rw [FileSystem.start?, if_neg (by simp [h.relative.1]), if_neg (by simp [h.relative.2]), hfs]
  rw [FileSystem.locate_eq, hstart]
  dsimp only
  obtain hnames | hnames := h.names
  · rw [hnames]
  · rw [hnames, FileSystem.follow_dot]

theorem locate_none (hnone : fs.entry? [name] = none) :
    fs.locate aim path = if aim.takesNothing && rest.isEmpty then .ok [name] else .error .noEntry := by
  rw [h.locate_eq hfs]
  exact FileSystem.follow_none aim h.proper rest hnone

theorem locate_file {data : FileData} (hfile : fs.entry? [name] = some (.file data)) :
    fs.locate aim path = if rest.isEmpty then .ok [name] else .error .notDirectory := by
  rw [h.locate_eq hfs]
  exact FileSystem.follow_file aim h.proper rest hfile

end FromRoot

theorem fromRoot_b : FromRoot "b" (bytes "b") [] := ⟨by decide, .inl (by decide), by decide, by decide, by decide⟩

theorem fromRoot_backup : FromRoot (bytes "b" ++ BackupPolicy.suffix) (bytes "b.ngmigrate.bak") [] :=
  ⟨by decide, .inl (by decide), by decide, by decide, by decide⟩

theorem lone_holds : lone.Holds "b" [bytes "b"] ⟨"x", 0o644, 0⟩ := ⟨⟨fromRoot_b.locate_file rfl .thing rfl, rfl⟩, rfl⟩

theorem loneWritten_holds : loneWritten.Holds "b" [bytes "b"] ⟨"y", 0o644, 2⟩ :=
  ⟨⟨fromRoot_b.locate_file rfl .thing rfl, rfl⟩, rfl⟩

theorem lone_lacks_backup : lone.Lacks (bytes "b" ++ BackupPolicy.suffix) :=
  fromRoot_backup.locate_none rfl .thing (by decide)

theorem lone_slot_backup : lone.locate .slot (bytes "b" ++ BackupPolicy.suffix) = .ok [bytes "b.ngmigrate.bak"] :=
  fromRoot_backup.locate_none rfl .slot (by decide)

theorem lone_backup : Backup.create lone false "b" .standard = .ok (true, loneBacked) := by
  have htemp : FromRoot (Path.beside (bytes "b" ++ BackupPolicy.suffix) ".tmp.0123456789")
      (bytes "b.ngmigrate.bak.tmp.0123456789") [] := ⟨by decide, .inr (by decide), by decide, by decide, by decide⟩
  have hreach : lone.Reachable (bytes "b" ++ BackupPolicy.suffix) := ⟨_, htemp.locate_none rfl .place (by decide)⟩
  apply Backup.create_eq rfl lone_lacks_backup lone_holds
  exact (FileSystem.replace_eq_ok false).mpr ⟨rfl, hreach, _, lone_slot_backup, by decide, by decide⟩

theorem lone_replace : loneBacked.replace false "b" "y" 0o644 = .ok loneWritten := by
  have htemp : FromRoot (Path.beside "b" ".tmp.0123456789") (bytes "b.tmp.0123456789") [] :=
    ⟨by decide, .inr (by decide), by decide, by decide, by decide⟩
  have hreach : loneBacked.Reachable "b" := ⟨_, htemp.locate_none rfl .place (by decide)⟩
  have hslot : loneBacked.locate .slot "b" = .ok [bytes "b"] := fromRoot_b.locate_file rfl .slot rfl
  exact (FileSystem.replace_eq_ok false).mpr ⟨rfl, hreach, _, hslot, by decide, by decide⟩

/-- Overwriting the file for the first time makes a backup. -/
theorem lone_overwrite : ∃ d, (Disk.start false .standard).overwrite lone false "b" "y" = (.ok (), d, loneWritten) ∧
    d.dryRun = false ∧ ∀ path, path ≠ bytes "b" → d.file? path = none := by
  refine ⟨_, Disk.overwrite_eq_ok rfl rfl lone_holds lone_backup lone_replace loneWritten_holds, ?_, fun path hpath => ?_⟩
  · simp [Disk.noted, Disk.start]
  · rw [Disk.file?_track, if_neg hpath]
    show (Disk.file? (Disk.track (Disk.start false .standard) _) path) = none
    rw [Disk.file?_track, if_neg hpath]
    rfl

end Lone

namespace Request

variable (request : Request) (d : Disk) (fs : FileSystem)

theorem run_policy : (request.run d fs).2.1.policy = d.policy := by
  cases request with
  | read path cancelled => exact Disk.read_keeps.1
  | overwrite path content cancelled => exact (Disk.overwrite_cases rfl).1

theorem privileged_run : (request.run d fs).2.2.privileged = fs.privileged := by
  cases request with
  | read path cancelled => rfl
  | overwrite path content cancelled => exact Disk.privileged_overwrite rfl

theorem readable_run (h : d.Readable fs) : (request.run d fs).2.1.Readable (request.run d fs).2.2 := by
  cases request with
  | read path cancelled => exact h.read cancelled path
  | overwrite path content cancelled => exact h.overwrite rfl

/-- Only the files that are asked for are backed up. -/
theorem mem_backups_run {path : Bytes} (h : request.path ≠ path) :
    path ∈ (request.run d fs).2.1.backups ↔ path ∈ d.backups := by
  cases request with
  | read target cancelled =>
    show path ∈ (d.read fs cancelled target).2.backups ↔ _
    rw [Disk.read_keeps.2.2]
  | overwrite target content cancelled =>
    show path ∈ (d.overwrite fs cancelled target content).2.1.backups ↔ _
    generalize hrun : d.overwrite fs cancelled target content = answer
    obtain ⟨result, d', fs'⟩ := answer
    dsimp only
    obtain ⟨-, -, ⟨-, hbackups, -⟩ | ⟨-, made, -, -, hbackups, -⟩⟩ := Disk.overwrite_cases hrun
    · rw [hbackups]
    · rw [hbackups]
      have hne : path ≠ target := Ne.symm h
      cases made <;> simp [hne]

end Request

end Codemod.Workspace
