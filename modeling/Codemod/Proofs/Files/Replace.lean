import Codemod.Files.Backup
import Codemod.Proofs.Files.Filled

namespace Codemod.Files

namespace FileSystem

section Put

variable (fs : FileSystem) {here : Location} (entry : Entry)

theorem entry?_put_self (h : here ≠ []) : entry? (fs.put here entry) here = some entry := by
  have hne : here.isEmpty = false := by simpa using h
  unfold put entry?
  rw [if_neg (by simp [hne])]
  by_cases hin : (fs.entries.lookup here).isSome = true
  · rw [if_pos hin]
    dsimp only
    generalize fs.entries = entries at hin
    induction entries with
    | nil => cases hin
    | cons e entries ih =>
      obtain ⟨v, old⟩ := e
      by_cases hv : v = here
      · simp [hv]
      · have hv' : (here == v) = false := by simpa using Ne.symm hv
        simp only [List.lookup_cons, hv'] at hin
        simpa [hv, List.lookup_cons, hv'] using ih hin
  · rw [if_neg hin]
    have hnone : fs.entries.lookup here = none := Option.not_isSome_iff_eq_none.mp hin
    simp [List.lookup_append, hnone]

theorem entry?_put_other {v : Location} (h : v ≠ here) : entry? (fs.put here entry) v = fs.entry? v := by
  have hv : (v == here) = false := by simpa using h
  unfold put entry?
  congr 1
  split
  · dsimp only
    generalize fs.entries = entries
    induction entries with
    | nil => rfl
    | cons e entries ih =>
      obtain ⟨u, old⟩ := e
      by_cases hu : u = here
      · simp [hu, List.lookup_cons, hv, ih]
      · by_cases hvu : v = u
        · simp [hu, hvu]
        · have hvu' : (v == u) = false := by simpa using hvu
          simp [hu, List.lookup_cons, hvu', ih]
  · simp [List.lookup_append, List.lookup_cons, hv]

end Put

/-- Taking a place away takes away what is below it and nothing else. -/
theorem entry?_erase (fs : FileSystem) {here v : Location} (hv : v ≠ []) :
    entry? (fs.erase here) v = if here <+: v then none else fs.entry? v := by
  have hne : v.isEmpty = false := by simpa using hv
  unfold erase entry?
  rw [hne]
  simp only [Bool.false_eq_true, if_false]
  generalize fs.entries = entries
  induction entries with
  | nil => simp
  | cons e entries ih =>
    obtain ⟨u, old⟩ := e
    by_cases hu : here <+: u
    · have hdrop : here.isPrefixOf u = true := List.isPrefixOf_iff_prefix.mpr hu
      rw [List.filter_cons_of_neg (by rw [hdrop]; simp), ih]
      by_cases hvu : v = u
      · rw [hvu, if_pos hu, if_pos hu]
      · have hvu' : (v == u) = false := by simpa using hvu
        simp only [List.lookup_cons, hvu']
    · have hkeep : here.isPrefixOf u = false := by
        rw [Bool.eq_false_iff, ne_eq, List.isPrefixOf_iff_prefix]
        exact hu
      rw [List.filter_cons_of_pos (by rw [hkeep]; rfl)]
      by_cases hvu : v = u
      · rw [hvu, if_neg hu]
        simp only [List.lookup_cons, beq_self_eq_true]
      · have hvu' : (v == u) = false := by simpa using hvu
        simp only [List.lookup_cons, hvu', ih]

/-- A path leads to a file. -/
structure Leads (fs : FileSystem) (path : Bytes) (here : Location) (data : FileData) : Prop where
  locate : fs.locate .thing path = .ok here
  entry : fs.entry? here = some (.file data)

/-- A path leads to a file that may be read. -/
structure Holds (fs : FileSystem) (path : Bytes) (here : Location) (data : FileData) : Prop extends
    Leads fs path here data where
  readable : fs.mayRead data.permissions = true

/-- A path leads to nothing. -/
def Lacks (fs : FileSystem) (path : Bytes) : Prop := fs.locate .thing path = .error .noEntry

section Reading

variable {fs : FileSystem} {path : Bytes} {here : Location} {data : FileData}

theorem mayRead_eq {fs' : FileSystem} (h : fs'.privileged = fs.privileged) (permissions : Nat) :
    fs'.mayRead permissions = fs.mayRead permissions := by
  unfold mayRead
  rw [h]

theorem mayRead_congr {fs' : FileSystem} (h : fs'.privileged = fs.privileged) {permissions : Nat}
    (hmode : fs.mayRead permissions = true) : fs'.mayRead permissions = true := (mayRead_eq h permissions).trans hmode

theorem mayRead_default (fs : FileSystem) : fs.mayRead defaultPermissions = true := Bool.or_true _

theorem Leads.unique (h : fs.Leads path here data) {here' : Location} {data' : FileData}
    (h' : fs.Leads path here' data') : here' = here ∧ data' = data := by
  obtain rfl := Except.ok.inj (h.locate.symm.trans h'.locate)
  have hdata := h'.entry.symm.trans h.entry
  simpa using hdata

theorem Leads.ne_directory (h : fs.Leads path here data) : fs.entry? here ≠ some .directory := by
  rw [h.entry]
  simp

theorem Leads.mem_looks (h : fs.Leads path here data) (hfs : fs.Grounded) : here ∈ fs.looks .thing path :=
  mem_looks_of_locate hfs h.locate h.ne_directory

theorem Leads.status (h : fs.Leads path here data) :
    fs.status path = .ok ⟨false, false, data.content.length, data.permissions, data.modified⟩ := by
  unfold FileSystem.status statusAt
  rw [h.locate]
  dsimp only
  rw [h.entry]
  rfl

theorem Leads.read (h : fs.Leads path here data) : fs.read path =
    if fs.mayRead data.permissions then .ok data.content else .error (refusal "open" path .denied) := by
  unfold FileSystem.read
  rw [h.locate]
  dsimp only
  rw [h.entry]

theorem Holds.read (h : fs.Holds path here data) : fs.read path = .ok data.content :=
  h.toLeads.read.trans (if_pos h.readable)

/-- The same file reads the same. -/
theorem Leads.read_eq {fs' : FileSystem} (h : fs.Leads path here data) (h' : fs'.Leads path here data)
    (hprivileged : fs'.privileged = fs.privileged) : fs'.read path = fs.read path := by
  rw [h.read, h'.read, mayRead_eq hprivileged]

theorem Lacks.status (h : fs.Lacks path) : fs.status path = .error (refusal "stat" path .noEntry) := by
  unfold FileSystem.status statusAt
  rw [h]

theorem isAbsent_refusal (operation : String) (path : Bytes) (e : Errno) :
    (refusal operation path e).isAbsent = true ↔ e = .noEntry := by
  cases e <;> simp [refusal, Fault.isAbsent, Fault.leaves]

theorem lacks_of_status {e : Fault} (h : fs.status path = .error e) (habsent : e.isAbsent = true) : fs.Lacks path := by
  unfold FileSystem.status statusAt at h
  cases hlocate : fs.locate .thing path with
  | ok here =>
    rw [hlocate] at h
    cases h
  | error errno =>
    rw [hlocate] at h
    cases h
    rw [(isAbsent_refusal "stat" path errno).mp habsent] at hlocate
    exact hlocate

theorem exists_locate_of_status {s : Status} (h : fs.status path = .ok s) : ∃ here, fs.locate .thing path = .ok here := by
  unfold FileSystem.status statusAt at h
  cases hlocate : fs.locate .thing path with
  | ok here => exact ⟨here, rfl⟩
  | error e =>
    rw [hlocate] at h
    cases h

theorem exists_holds {content : Bytes} (h : fs.read path = .ok content) :
    ∃ here data, fs.Holds path here data ∧ data.content = content := by
  unfold FileSystem.read at h
  cases hlocate : fs.locate .thing path with
  | error e =>
    rw [hlocate] at h
    cases h
  | ok here =>
    rw [hlocate] at h
    dsimp only at h
    split at h
    · next data hdata =>
      split at h
      · next hreadable => exact ⟨here, data, ⟨⟨hlocate, hdata⟩, hreadable⟩, Except.ok.inj h⟩
      · cases h
    · cases h

end Reading

section Replace

variable {fs fs' : FileSystem} {path content : Bytes} {permissions : Nat}

/-- The state of a file written now. -/
def written (fs : FileSystem) (content : Bytes) (permissions : Nat) : FileData :=
  ⟨content, if permissions = 0 then defaultPermissions else permissions, fs.clock + 1⟩

/-- What is written with permissions to read it may be read. -/
theorem mayRead_written (h : fs.mayRead permissions = true) (content : Bytes) :
    fs.mayRead (fs.written content permissions).permissions = true := by
  unfold written
  dsimp only
  split
  · exact mayRead_default fs
  · exact h

/-- A neighbour of a path can be written. -/
def Reachable (fs : FileSystem) (path : Bytes) : Prop :=
  ∃ here, fs.locate .place (Path.beside path ".tmp.0123456789") = .ok here

/-- What it takes to replace a file, and all that it does. -/
theorem replace_eq_ok (cancelled : Bool) : fs.replace cancelled path content permissions = .ok fs' ↔
    cancelled = false ∧ fs.Reachable path ∧ ∃ w, fs.locate .slot path = .ok w ∧ fs.entry? w ≠ some .directory ∧
      fs' = { fs.put w (.file (fs.written content permissions)) with clock := fs.clock + 1 } := by
  unfold replace Reachable
  cases cancelled with
  | true => simp
  | false =>
    cases htemp : fs.locate .place (Path.beside path ".tmp.0123456789") with
    | error e => simp
    | ok temporary =>
      cases hslot : fs.locate .slot path with
      | error e => simp
      | ok w =>
        by_cases hdir : fs.entry? w = some .directory
        · simp [hdir]
        · simp only [hdir, Bool.false_eq_true, if_false, written, Except.ok.injEq, exists_eq', true_and, ne_eq,
            exists_eq_left', not_false_eq_true]
          exact eq_comm

theorem filled_of_replace {cancelled : Bool} (h : fs.replace cancelled path content permissions = .ok fs') :
    fs.Reachable path ∧ ∃ w, fs.locate .slot path = .ok w ∧ fs.entry? w ≠ some .directory ∧
      Filled fs w (fs.written content permissions) fs' := by
  obtain ⟨-, htemp, w, hslot, hdir, rfl⟩ := (replace_eq_ok cancelled).mp h
  have hne : w ≠ [] := by
    rintro rfl
    exact hdir rfl
  refine ⟨htemp, w, hslot, hdir, ?_, ?_, ?_, ?_⟩
  · exact entry?_put_self fs _ hne
  · intro v hv
    exact entry?_put_other fs _ hv
  all_goals
    dsimp only
    unfold put
    split <;> rfl

theorem privileged_replace {cancelled : Bool} (h : fs.replace cancelled path content permissions = .ok fs') :
    fs'.privileged = fs.privileged := by
  obtain ⟨-, w, -, -, hf⟩ := filled_of_replace h
  exact hf.privileged

/-- A path has been given a file of its own in the place `w`. -/
structure Renewed (fs : FileSystem) (path : Bytes) (data : FileData) (fs' : FileSystem) (w : Location) : Prop where
  slot : fs.locate .slot path = .ok w
  barred : fs.Barred w (fs.locate .thing path)
  filled : Filled fs w data fs'
  grounded : fs'.Grounded
  leads : fs'.Leads path w data

/-- Permissions to read it make the file readable. -/
theorem Renewed.holds {w : Location} (h : Renewed fs path (fs.written content permissions) fs' w)
    (hmode : fs.mayRead permissions = true) : fs'.Holds path w (fs.written content permissions) :=
  ⟨h.leads, mayRead_congr h.filled.privileged (mayRead_written hmode content)⟩

theorem renewed_of_replace (hfs : fs.Grounded) (hloop : fs.locate .thing path ≠ .error .loop)
    (hkind : ∀ loc, fs.locate .thing path = .ok loc → fs.entry? loc ≠ some .directory) {cancelled : Bool}
    (h : fs.replace cancelled path content permissions = .ok fs') :
    ∃ w, Renewed fs path (fs.written content permissions) fs' w := by
  obtain ⟨-, w, hslot, hdir, hf⟩ := filled_of_replace h
  have hbarred := (barred_of_slot hfs hslot hdir hloop hkind).1
  have hground := hf.grounded hfs hdir
  have hslot' : fs'.locate .slot path = .ok w :=
    hf.locate_of_mem hbarred hfs (mem_looks_of_locate hfs hslot hdir) hslot
  exact ⟨w, hslot, hbarred, hf, hground, locate_of_slot hground hslot' hf.here .thing, hf.here⟩

theorem Leads.replace {here : Location} {data : FileData} (hp : fs.Leads path here data) (hfs : fs.Grounded)
    {cancelled : Bool} (h : fs.replace cancelled path content permissions = .ok fs') :
    ∃ w, Renewed fs path (fs.written content permissions) fs' w := by
  apply renewed_of_replace hfs _ _ h
  · rw [hp.locate]
    simp
  · intro loc hloc
    obtain rfl := Except.ok.inj (hp.locate.symm.trans hloc)
    exact hp.ne_directory

theorem Lacks.replace (hp : fs.Lacks path) (hfs : fs.Grounded) {cancelled : Bool}
    (h : fs.replace cancelled path content permissions = .ok fs') :
    ∃ w, Renewed fs path (fs.written content permissions) fs' w := by
  apply renewed_of_replace hfs _ _ h
  · rw [hp]
    simp
  · intro loc hloc
    rw [hp] at hloc
    cases hloc

end Replace

section Frame

variable {fs fs' : FileSystem} {w : Location} {new : FileData} {other : Bytes}

theorem Filled.leads (hf : Filled fs w new fs') (hfs : fs.Grounded) (hmem : w ∉ fs.looks .thing other)
    {here : Location} {data : FileData} (h : fs.Leads other here data) : fs'.Leads other here data := by
  refine ⟨(hf.locate_of_not_mem hmem).1.trans h.locate, ?_⟩
  rw [hf.elsewhere here, h.entry]
  rintro rfl
  exact hmem (h.mem_looks hfs)

theorem Filled.holds (hf : Filled fs w new fs') (hfs : fs.Grounded) (hmem : w ∉ fs.looks .thing other)
    {here : Location} {data : FileData} (h : fs.Holds other here data) : fs'.Holds other here data :=
  ⟨hf.leads hfs hmem h.toLeads, mayRead_congr hf.privileged h.readable⟩

theorem Filled.lacks (hf : Filled fs w new fs') (hmem : w ∉ fs.looks .thing other) (h : fs.Lacks other) :
    fs'.Lacks other := (hf.locate_of_not_mem hmem).1.trans h

theorem Cleared.leads (hc : Cleared fs w fs') (hfs : fs.Grounded) (hkind : fs.entry? w ≠ some .directory)
    (hmem : w ∉ fs.looks .thing other) {here : Location} {data : FileData} (h : fs.Leads other here data) :
    fs'.Leads other here data := by
  refine ⟨(hc.locate_of_not_mem hfs hkind hmem).trans h.locate, ?_⟩
  rw [hc.elsewhere here, h.entry]
  apply not_above_of_mem_looks hfs hkind (h.mem_looks hfs)
  rintro rfl
  exact hmem (h.mem_looks hfs)

variable {path : Bytes} (hr : Renewed fs path new fs' w) (hfs : fs.Grounded)

include hr hfs

/-- Other files are not on the way. -/
theorem Renewed.not_mem_of_leads {here : Location} {data : FileData} (h : fs.Leads other here data)
    (hne : fs.locate .thing path ≠ .ok here) : w ∉ fs.looks .thing other :=
  fun hmem => hne ((hr.barred.of_mem hfs hmem).1 here h.locate)

theorem Renewed.not_mem_of_lacks (h : fs.Lacks other) (hne : ¬fs.Lacks path) : w ∉ fs.looks .thing other :=
  fun hmem => hne ((hr.barred.of_mem hfs hmem).2 h)

theorem Renewed.reachable (h : fs.Reachable other) : fs'.Reachable other := by
  obtain ⟨here, hhere⟩ := h
  exact hr.filled.locate_ok hr.barred hfs hhere

end Frame

end FileSystem

namespace Snapshot

variable {fs : FileSystem} {path : Bytes} {here : Location} {data : FileData}

/-- What is remembered of a file. -/
def ofFile (path : Bytes) (data : FileData) : Snapshot :=
  ⟨path, data.permissions, data.modified, data.content.length, Digest.sha256 data.content⟩

theorem take_of_holds (h : fs.Holds path here data) :
    take fs false path = .ok (data.content, ofFile path data) := by
  unfold take
  rw [h.status, h.read]
  rfl

theorem take_of_lacks (h : fs.Lacks path) :
    take fs false path = .error (readFault path (FileSystem.refusal "stat" path .noEntry)) := by
  unfold take
  rw [h.status]
  rfl

/-- Only a missing file is reported as not found. -/
theorem isA_notFound_readFault (operation : String) (path : Bytes) (e : Errno) :
    (readFault path (FileSystem.refusal operation path e)).isA .notFound = true ↔ e = .noEntry := by
  have habsent := FileSystem.isAbsent_refusal operation path e
  unfold readFault
  by_cases he : e = .noEntry
  · rw [if_pos (habsent.mpr he)]
    simp [Fault.isA, Fault.leaves, he]
  · rw [if_neg fun h => he (habsent.mp h)]
    split <;> simp [FileSystem.refusal, Fault.isA, Fault.leaves, he]

theorem exists_holds_of_take {cancelled : Bool} {content : Bytes} {s : Snapshot}
    (h : take fs cancelled path = .ok (content, s)) :
    ∃ here data, fs.Holds path here data ∧ content = data.content ∧ s = ofFile path data := by
  unfold take at h
  cases cancelled with
  | true => cases h
  | false =>
    cases hstatus : fs.status path with
    | error e =>
      rw [hstatus] at h
      cases h
    | ok status =>
      rw [hstatus] at h
      cases hread : fs.read path with
      | error e =>
        rw [hread] at h
        dsimp only at h
        split at h
        · cases h
        · split at h <;> cases h
      | ok content' =>
        obtain ⟨here, data, hdata, rfl⟩ := FileSystem.exists_holds hread
        rw [hdata.status] at hstatus
        cases hstatus
        rw [hread] at h
        cases h
        exact ⟨here, data, hdata, rfl, rfl⟩

/-- A file with the size and the time that are remembered passes. -/
theorem verify_of_leads (h : fs.Leads path here data) {last : FileData}
    (hsize : data.content.length = last.content.length) (htime : data.modified = last.modified) :
    (ofFile path last).verify fs false = .ok () := by
  unfold verify ofFile
  dsimp only
  rw [h.status]
  simp [hsize, htime]

/-- A file with the content that is remembered passes, whenever it was written. -/
theorem verify_of_content (h : fs.Holds path here data) {last : FileData} (hcontent : data.content = last.content) :
    (ofFile path last).verify fs false = .ok () := by
  unfold verify ofFile
  dsimp only
  rw [h.status, h.read]
  simp [hcontent]

/-- A file that is as it was remembered passes. -/
theorem verify_ofFile (h : fs.Leads path here data) : (ofFile path data).verify fs false = .ok () :=
  verify_of_leads h rfl rfl

end Snapshot

end Codemod.Files
