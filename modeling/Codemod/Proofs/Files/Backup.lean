import Codemod.Proofs.Files.Replace

namespace Codemod.Files

open FileSystem

/-- Where a policy has a file backed up, if it does. -/
def BackupPolicy.target? (policy : BackupPolicy) (path : Bytes) : Option Bytes :=
  if policy.enabled then place? policy.mode path else none

theorem BackupPolicy.place?_eq {mode : String} (h : mode ≠ "none") (path : Bytes) :
    place? mode path = some (path ++ suffix) := if_neg h

namespace Backup

variable {fs fs' : FileSystem} {path : Bytes} {policy : BackupPolicy} {cancelled made : Bool}

/-- A backup is made of a file that has none, or nothing is done. -/
theorem create_cases (h : create fs cancelled path policy = .ok (made, fs')) :
    (made = false ∧ fs' = fs ∧ ∀ place, policy.target? path = some place → ∃ here, fs.locate .thing place = .ok here) ∨
    (made = true ∧ ∃ place here data, policy.target? path = some place ∧ fs.Lacks place ∧ fs.Holds path here data ∧
      fs.replace false place data.content data.permissions = .ok fs') := by
  unfold create at h
  cases htarget : policy.target? path with
  | none =>
    rw [BackupPolicy.target?] at htarget
    rw [htarget] at h
    cases h
    exact .inl ⟨rfl, rfl, by rintro place ⟨⟩⟩
  | some place =>
    rw [BackupPolicy.target?] at htarget
    rw [htarget] at h
    cases cancelled with
    | true => cases h
    | false =>
      dsimp only at h
      rw [if_neg (by simp)] at h
      cases hstatus : fs.status place with
      | ok s =>
        rw [hstatus] at h
        cases h
        refine .inl ⟨rfl, rfl, ?_⟩
        rintro _ ⟨⟩
        exact exists_locate_of_status hstatus
      | error e =>
        rw [hstatus] at h
        dsimp only at h
        split at h
        · cases h
        · next habsent =>
          cases htake : Snapshot.take fs false path with
          | error e =>
            rw [htake] at h
            cases h
          | ok found =>
            obtain ⟨here, data, hpath, hcontent, hsnapshot⟩ := Snapshot.exists_holds_of_take htake
            rw [htake] at h
            dsimp only at h
            rw [hcontent, hsnapshot] at h
            cases hreplace : fs.replace false place data.content data.permissions with
            | error e =>
              simp only [Snapshot.ofFile, hreplace] at h
              cases h
            | ok fs₁ =>
              simp only [Snapshot.ofFile, hreplace] at h
              cases h
              exact .inr ⟨rfl, place, here, data, rfl, lacks_of_status hstatus (by simpa using habsent), hpath, hreplace⟩

theorem privileged_create (h : create fs cancelled path policy = .ok (made, fs')) : fs'.privileged = fs.privileged := by
  obtain ⟨-, rfl, -⟩ | ⟨-, place, here, data, -, -, -, hreplace⟩ := create_cases h
  · rfl
  · exact privileged_replace hreplace

theorem create_eq {place : Bytes} (htarget : policy.target? path = some place) (hplace : fs.Lacks place)
    {here : Location} {data : FileData} (hp : fs.Holds path here data)
    (hreplace : fs.replace false place data.content data.permissions = .ok fs') :
    create fs false path policy = .ok (true, fs') := by
  rw [BackupPolicy.target?] at htarget
  unfold create
  rw [htarget]
  dsimp only
  rw [if_neg (by simp), hplace.status]
  dsimp only
  rw [(isAbsent_refusal "stat" place .noEntry).mpr rfl, if_neg (by simp), Snapshot.take_of_holds hp]
  dsimp only [Snapshot.ofFile]
  rw [hreplace]

end Backup

/-- A file stands with a backup beside it, which holds some content and may be read. -/
structure Backed (fs : FileSystem) (path content : Bytes) : Prop where
  grounded : fs.Grounded
  file : ∃ here data, fs.Leads path here data
  backup : ∃ w data, fs.locate .slot (path ++ BackupPolicy.suffix) = .ok w ∧ fs.entry? w = some (.file data) ∧
    fs.mayRead data.permissions = true ∧ data.content = content ∧ w ∉ fs.looks .thing path

namespace Backed

variable {fs fs' : FileSystem} {path content : Bytes}

theorem holds (h : Backed fs path content) :
    ∃ w data, fs.Holds (path ++ BackupPolicy.suffix) w data ∧ data.content = content := by
  obtain ⟨w, data, hslot, hentry, hreadable, hcontent, -⟩ := h.backup
  exact ⟨w, data, ⟨⟨locate_of_slot h.grounded hslot hentry .thing, hentry⟩, hreadable⟩, hcontent⟩

theorem read (h : Backed fs path content) : fs.read (path ++ BackupPolicy.suffix) = .ok content := by
  obtain ⟨w, data, hholds, rfl⟩ := h.holds
  exact hholds.read

/-- A new backup holds what the file holds. -/
theorem of_renewed (hfs : fs.Grounded) {here : Location} {data : FileData} (hp : fs.Holds path here data)
    (hnone : fs.Lacks (path ++ BackupPolicy.suffix)) {w : Location}
    (hr : Renewed fs (path ++ BackupPolicy.suffix) (fs.written data.content data.permissions) fs' w) :
    Backed fs' path data.content ∧ fs'.Holds path here data := by
  have hmem : w ∉ fs.looks .thing path := by
    apply hr.not_mem_of_leads hfs hp.toLeads
    rw [hnone]
    simp
  have hp' := hr.filled.holds hfs hmem hp
  have hslot : fs'.locate .slot (path ++ BackupPolicy.suffix) = .ok w :=
    hr.filled.locate_of_mem hr.barred hfs (mem_looks_of_locate hfs hr.slot hr.barred.kind) hr.slot
  refine ⟨⟨hr.grounded, ⟨here, data, hp'.toLeads⟩, w, _, hslot, hr.filled.here, (hr.holds hp.readable).readable, rfl, ?_⟩, hp'⟩
  rw [(hr.filled.locate_of_not_mem hmem).2]
  exact hmem

/-- Writing a file leaves its backup alone. -/
theorem of_written (h : Backed fs path content) {new : FileData} {w : Location} (hr : Renewed fs path new fs' w) :
    Backed fs' path content := by
  obtain ⟨here, data, hp⟩ := h.file
  obtain ⟨v, kept, hslot, hentry, hreadable, hcontent, hapart⟩ := h.backup
  have hbackup : fs.Holds (path ++ BackupPolicy.suffix) v kept :=
    ⟨⟨locate_of_slot h.grounded hslot hentry .thing, hentry⟩, hreadable⟩
  -- the way to the backup does not pass the file: it would end there
  have hmem : w ∉ fs.looks .thing (path ++ BackupPolicy.suffix) := by
    apply hr.not_mem_of_leads h.grounded hbackup.toLeads
    rw [hp.locate]
    intro heq
    obtain rfl := Except.ok.inj heq
    exact hapart (hp.mem_looks h.grounded)
  have hslot' := (hr.filled.locate_of_not_mem fun hw => hmem (looks_subset_thing fs .slot _ hw)).1.trans hslot
  have hbackup' := hr.filled.holds h.grounded hmem hbackup
  refine ⟨hr.grounded, ⟨w, new, hr.leads⟩, v, kept, hslot', hbackup'.entry, hbackup'.readable, hcontent, ?_⟩
  exact fun hv => hapart (hr.filled.looks_subset .thing path hv)

end Backed

namespace Backup

section Create

variable {fs fs' : FileSystem} {path content : Bytes} {policy : BackupPolicy} {cancelled made : Bool}
  (htarget : policy.target? path = some (path ++ BackupPolicy.suffix))
  (h : create fs cancelled path policy = .ok (made, fs'))

include htarget h

/-- The first backup holds what the file holds, which has to be readable for that. -/
theorem create_of_missing (hfs : fs.Grounded) {here : Location} {data : FileData} (hp : fs.Leads path here data)
    {e : Errno} (hmissing : fs.locate .thing (path ++ BackupPolicy.suffix) = .error e) :
    made = true ∧ fs.Holds path here data ∧ Backed fs' path data.content ∧ fs'.Holds path here data := by
  obtain ⟨-, -, hthere⟩ | ⟨rfl, place, here', data', hplace, hlacks, hp', hreplace⟩ := create_cases h
  · obtain ⟨v, hv⟩ := hthere _ htarget
    rw [hmissing] at hv
    cases hv
  · obtain rfl := Option.some.inj (htarget.symm.trans hplace)
    obtain ⟨rfl, rfl⟩ := hp.unique hp'.toLeads
    obtain ⟨w, hr⟩ := hlacks.replace hfs hreplace
    obtain ⟨hbacked, hstill⟩ := Backed.of_renewed hfs hp' hlacks hr
    exact ⟨rfl, hp', hbacked, hstill⟩

/-- There is no second backup. -/
theorem create_of_backed (hb : Backed fs path content) : made = false ∧ fs' = fs := by
  obtain ⟨hmade, hfs, -⟩ | ⟨-, place, -, -, hplace, hlacks, -⟩ := create_cases h
  · exact ⟨hmade, hfs⟩
  · obtain rfl := Option.some.inj (htarget.symm.trans hplace)
    obtain ⟨w, kept, hbackup, -⟩ := hb.holds
    have hnot := hbackup.locate.symm.trans hlacks
    cases hnot

end Create

variable {fs : FileSystem} {path : Bytes} {mode : String}

theorem restore_of_lacks (hmode : mode ≠ "none") (h : fs.Lacks (path ++ BackupPolicy.suffix)) :
    restore fs false path mode = .ok (false, fs) := by
  unfold restore
  rw [if_neg (by simp), BackupPolicy.place?_eq hmode]
  dsimp only
  rw [Snapshot.take_of_lacks h]
  exact if_pos ((Snapshot.isA_notFound_readFault ..).mpr rfl)

end Backup

/-- Paths to different files or to nothing. None that leads to nothing would come by the place where
a backup of another is to be made. -/
structure Apart (policy : BackupPolicy) (paths : List Bytes) (fs : FileSystem) : Prop where
  grounded : fs.Grounded
  known : ∀ p ∈ paths, (∃ here data, fs.Leads p here data) ∨ fs.Lacks p
  distinct : ∀ p ∈ paths, ∀ q ∈ paths, p ≠ q → ∀ here, fs.locate .thing p = .ok here → fs.locate .thing q ≠ .ok here
  clear : ∀ p ∈ paths, ∀ q ∈ paths, p ≠ q → fs.Lacks q → ∀ place w, policy.target? p = some place →
    fs.Lacks place → fs.locate .slot place = .ok w → w ∉ fs.looks .thing q

/-- A file is as before and reads as before. -/
structure Same (fs fs' : FileSystem) (path : Bytes) : Prop where
  leads : ∀ here data, fs.Leads path here data → fs'.Leads path here data
  lacks : fs.Lacks path → fs'.Lacks path
  privileged : fs'.privileged = fs.privileged

theorem same_refl (fs : FileSystem) (path : Bytes) : Same fs fs path := ⟨fun _ _ h => h, fun h => h, rfl⟩

namespace Same

variable {fs fs₁ fs' : FileSystem} {path : Bytes}

theorem trans (h : Same fs fs₁ path) (h' : Same fs₁ fs' path) : Same fs fs' path where
  leads here data hp := h'.leads here data (h.leads here data hp)
  lacks hp := h'.lacks (h.lacks hp)
  privileged := h'.privileged.trans h.privileged

theorem holds (h : Same fs fs' path) {here : Location} {data : FileData} (hp : fs.Holds path here data) :
    fs'.Holds path here data := ⟨h.leads here data hp.toLeads, mayRead_congr h.privileged hp.readable⟩

theorem read_eq (h : Same fs fs' path) {here : Location} {data : FileData} (hp : fs.Leads path here data) :
    fs'.read path = fs.read path := hp.read_eq (h.leads here data hp) h.privileged

theorem take_eq (h : Same fs fs' path) (hknown : (∃ here data, fs.Leads path here data) ∨ fs.Lacks path) :
    Snapshot.take fs' false path = Snapshot.take fs false path := by
  obtain ⟨here, data, hp⟩ | hp := hknown
  · unfold Snapshot.take
    rw [hp.status, (h.leads here data hp).status, h.read_eq hp]
  · rw [Snapshot.take_of_lacks hp, Snapshot.take_of_lacks (h.lacks hp)]

end Same

namespace Apart

variable {policy : BackupPolicy} {paths : List Bytes} {fs fs' : FileSystem}

theorem same_of_filled {w : Location} {new : FileData} {q : Bytes} (hfs : fs.Grounded) (hf : Filled fs w new fs')
    (hmem : w ∉ fs.looks .thing q) : Same fs fs' q :=
  ⟨fun _ _ hq => hf.leads hfs hmem hq, fun hq => hf.lacks hmem hq, hf.privileged⟩

/-- A file can be put in the place of one of the paths, or off them all. -/
theorem renewed (h : Apart policy paths fs) {path : Bytes} {new : FileData} {w : Location}
    (hr : Renewed fs path new fs' w)
    (hon : ∀ q ∈ paths, (q = path ∧ ∃ here data, fs.Leads q here data) ∨ w ∉ fs.looks .thing q) :
    Apart policy paths fs' := by
  -- a path off the place leads where it led, and never there
  have hoff : ∀ q ∈ paths, w ∉ fs.looks .thing q → fs'.locate .thing q = fs.locate .thing q ∧
      fs'.locate .thing q ≠ .ok w := by
    intro q hq hmem
    have hsame := (hr.filled.locate_of_not_mem hmem).1
    refine ⟨hsame, fun hw => ?_⟩
    obtain ⟨here, data, hp⟩ | hp := h.known q hq
    · obtain rfl := Except.ok.inj (hp.locate.symm.trans (hsame.symm.trans hw))
      exact hmem (hp.mem_looks h.grounded)
    · have hnot := hp.symm.trans (hsame.symm.trans hw)
      cases hnot
  have hlacks : ∀ q ∈ paths, fs'.Lacks q → fs.Lacks q := by
    intro q hq hlacks
    obtain ⟨rfl, -⟩ | hmem := hon q hq
    · have hnot := hr.leads.locate.symm.trans hlacks
      cases hnot
    · exact (hoff q hq hmem).1.symm.trans hlacks
  refine ⟨hr.grounded, ?_, ?_, ?_⟩
  · intro q hq
    obtain ⟨rfl, -⟩ | hmem := hon q hq
    · exact .inl ⟨w, new, hr.leads⟩
    · have hsame := same_of_filled h.grounded hr.filled hmem
      exact (h.known q hq).imp (fun ⟨here, data, hp⟩ => ⟨here, data, hsame.leads here data hp⟩) hsame.lacks
  · intro p hp q hq hne here hlp hlq
    obtain ⟨rfl, -⟩ | hmemp := hon p hp
    · obtain rfl := Except.ok.inj (hr.leads.locate.symm.trans hlp)
      obtain ⟨rfl, -⟩ | hmemq := hon q hq
      · exact hne rfl
      · exact (hoff q hq hmemq).2 hlq
    · obtain ⟨rfl, -⟩ | hmemq := hon q hq
      · obtain rfl := Except.ok.inj (hr.leads.locate.symm.trans hlq)
        exact (hoff p hp hmemp).2 hlp
      · rw [(hoff p hp hmemp).1] at hlp
        rw [(hoff q hq hmemq).1] at hlq
        exact h.distinct p hp q hq hne here hlp hlq
  · intro p hp q hq hne hq' place v htarget hplace hslot hv
    -- a place that is still empty was empty before, and the way to it is the same
    have hmem := hr.filled.not_mem_of_absent hr.grounded hplace
    have hplace' : fs.Lacks place := (hr.filled.locate_of_not_mem_after hmem).trans hplace
    have hslot' := (hr.filled.locate_of_not_mem_after fun hw => hmem (looks_subset_thing fs' .slot _ hw)).trans hslot
    exact h.clear p hp q hq hne (hlacks q hq hq') place v htarget hplace' hslot'
      (hr.filled.looks_subset .thing q hv)

/-- Backing one of the files up changes none of them. -/
theorem create (h : Apart policy paths fs) {p : Bytes} (hp : p ∈ paths) {cancelled made : Bool}
    (hcreate : Backup.create fs cancelled p policy = .ok (made, fs')) :
    Apart policy paths fs' ∧ ∀ q ∈ paths, Same fs fs' q := by
  obtain ⟨-, rfl, -⟩ | ⟨-, place, here, data, htarget, hplace, hholds, hreplace⟩ := Backup.create_cases hcreate
  · exact ⟨h, fun q _ => same_refl fs' q⟩
  · obtain ⟨w, hr⟩ := hplace.replace h.grounded hreplace
    have hmem : ∀ q ∈ paths, w ∉ fs.looks .thing q := by
      intro q hq
      obtain ⟨here', data', hq'⟩ | hq' := h.known q hq
      · apply hr.not_mem_of_leads h.grounded hq'
        rw [hplace]
        simp
      · refine h.clear p hp q hq ?_ hq' place w htarget hplace hr.slot
        rintro rfl
        have hnot := hholds.locate.symm.trans hq'
        cases hnot
    exact ⟨h.renewed hr fun q hq => .inr (hmem q hq), fun q hq => same_of_filled h.grounded hr.filled (hmem q hq)⟩

/-- Replacing one of the files changes no other. -/
theorem replace (h : Apart policy paths fs) {p content : Bytes} (hp : p ∈ paths) {here : Location} {data : FileData}
    (hleads : fs.Leads p here data) {cancelled : Bool} {permissions : Nat}
    (hreplace : fs.replace cancelled p content permissions = .ok fs') :
    Apart policy paths fs' ∧ (∃ w, Renewed fs p (fs.written content permissions) fs' w) ∧
      ∀ q ∈ paths, q ≠ p → Same fs fs' q := by
  obtain ⟨w, hr⟩ := hleads.replace h.grounded hreplace
  have hmem : ∀ q ∈ paths, q ≠ p → w ∉ fs.looks .thing q := by
    intro q hq hne
    obtain ⟨here', data', hq'⟩ | hq' := h.known q hq
    · exact hr.not_mem_of_leads h.grounded hq' (h.distinct q hq p hp hne here' hq'.locate)
    · apply hr.not_mem_of_lacks h.grounded hq'
      intro hlacks
      have hnot := hleads.locate.symm.trans hlacks
      cases hnot
  refine ⟨h.renewed hr fun q hq => ?_, ⟨w, hr⟩, fun q hq hne =>
    same_of_filled h.grounded hr.filled (hmem q hq hne)⟩
  by_cases hqp : q = p
  · exact .inl ⟨hqp, here, data, hqp ▸ hleads⟩
  · exact .inr (hmem q hq hqp)

end Apart

end Codemod.Files
