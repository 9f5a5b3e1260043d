import Mathlib.Order.BooleanAlgebra.Set
import Codemod.Command.Restore
import Codemod.Proofs.Files.Plain
import Codemod.Proofs.Workspace.Calls

namespace Codemod

open Files Workspace

namespace Files

/-- What stands in a place, no matter who may use it and since when. -/
def Entry.bare : Entry → Entry
  | .file data => .file ⟨data.content, 0, 0⟩
  | entry => entry

def FileSystem.shown (fs : FileSystem) (here : Location) : Option Entry := (fs.entry? here).map Entry.bare

/-- No file has the name of a backup, and nothing stands where a backup of a file would be made. -/
structure Unbacked (fs : FileSystem) : Prop where
  named : ∀ up name data, fs.entry? (up ++ [name]) = some (.file data) → ¬BackupPolicy.suffix <:+ name
  clear : ∀ up name data, fs.entry? (up ++ [name]) = some (.file data) →
    fs.entry? (up ++ [name ++ BackupPolicy.suffix]) = none

/-- A file that was there first still stands, and what it held is beside it, to be read. -/
structure Saved (fs₀ fs : FileSystem) (up : Location) (name : Bytes) : Prop where
  file : ∃ first data kept, fs₀.entry? (up ++ [name]) = some (.file first) ∧ fs.entry? (up ++ [name]) = some (.file data) ∧
    fs.entry? (up ++ [name ++ BackupPolicy.suffix]) = some (.file kept) ∧ kept.content = first.content ∧
    fs.mayRead kept.permissions = true
  short : ¬255 < (name ++ BackupPolicy.suffix ++ bytes ".tmp.0123456789").length

/-- Some files are saved, and all else shows what it showed first. -/
structure Wrote (fs₀ : FileSystem) (start : Location) (files : Set (Location × Bytes)) (fs : FileSystem) : Prop where
  plain : fs.Plain start
  saved : ∀ up name, (up, name) ∈ files → Saved fs₀ fs up name
  others : ∀ here, (∀ up name, (up, name) ∈ files → here ≠ up ++ [name] ∧ here ≠ up ++ [name ++ BackupPolicy.suffix]) →
    fs.shown here = fs₀.shown here

theorem place_inj {up up' : Location} {name name' : Bytes} (h : up ++ [name] = up' ++ [name']) : up = up' ∧ name = name' :=
  have hsplit := List.append_inj' h rfl
  ⟨hsplit.1, List.singleton_inj.mp hsplit.2⟩

theorem Unbacked.ne_backup {fs : FileSystem} (h : Unbacked fs) {up up' : Location} {name name' : Bytes} {data : FileData}
    (hfile : fs.entry? (up ++ [name]) = some (.file data)) : up ++ [name] ≠ up' ++ [name' ++ BackupPolicy.suffix] := by
  intro heq
  have hname := (place_inj heq).2
  apply h.named up name data hfile
  rw [hname]
  exact List.suffix_append ..

theorem file_of_shown {fs fs₀ : FileSystem} {here : Location} {data : FileData} (h : fs.shown here = fs₀.shown here)
    (hfile : fs₀.entry? here = some (.file data)) :
    ∃ found, fs.entry? here = some (.file found) ∧ found.content = data.content := by
  unfold FileSystem.shown at h
  rw [hfile] at h
  cases hentry : fs.entry? here with
  | none =>
    rw [hentry] at h
    cases h
  | some entry =>
    rw [hentry] at h
    cases entry with
    | file found =>
      simp only [Option.map_some, Entry.bare, Option.some.injEq, Entry.file.injEq, FileData.mk.injEq] at h
      exact ⟨found, rfl, h.1⟩
    | directory => cases h
    | link target => cases h

namespace Wrote

variable {fs₀ fs fs' : FileSystem} {start up : Location} {name path : Bytes} {files : Set (Location × Bytes)}
  {first : FileData}

theorem nothing {fs₀ : FileSystem} {start : Location} (h : fs₀.Plain start) : Wrote fs₀ start ∅ fs₀ :=
  ⟨h, fun _ _ hmem => absurd hmem (Set.notMem_empty _), fun _ _ => rfl⟩

theorem shown_of_empty (h : Wrote fs₀ start ∅ fs) (here : Location) : fs.shown here = fs₀.shown here :=
  h.others here fun _ _ hmem => absurd hmem (Set.notMem_empty _)

section File

variable (h : Wrote fs₀ start files fs) (hbare : Unbacked fs₀) (hfile : fs₀.entry? (up ++ [name]) = some (.file first))

include h hbare hfile

/-- A file that is not saved holds what it held first, and has no backup. -/
theorem unsaved (hnot : (up, name) ∉ files) :
    (∃ data, fs.entry? (up ++ [name]) = some (.file data) ∧ data.content = first.content) ∧
      fs.entry? (up ++ [name ++ BackupPolicy.suffix]) = none := by
  have hfirst (up' name') (hmem : (up', name') ∈ files) : ∃ data, fs₀.entry? (up' ++ [name']) = some (.file data) := by
    obtain ⟨data, -, -, hdata, -⟩ := (h.saved up' name' hmem).file
    exact ⟨data, hdata⟩
  constructor
  · apply file_of_shown _ hfile
    apply h.others
    intro up' name' hmem
    refine ⟨fun heq => ?_, hbare.ne_backup hfile⟩
    obtain ⟨rfl, rfl⟩ := place_inj heq
    exact hnot hmem
  · have hsame := h.others (up ++ [name ++ BackupPolicy.suffix]) fun up' name' hmem => by
      obtain ⟨data, hdata⟩ := hfirst up' name' hmem
      refine ⟨(hbare.ne_backup hdata).symm, fun heq => ?_⟩
      obtain ⟨rfl, hname⟩ := place_inj heq
      rw [List.append_cancel_right hname] at hnot
      exact hnot hmem
    rw [FileSystem.shown, FileSystem.shown, hbare.clear up name first hfile] at hsame
    exact Option.map_eq_none_iff.mp hsame

/-- It is there, saved or not. -/
theorem there : ∃ data, fs.entry? (up ++ [name]) = some (.file data) := by
  by_cases hmem : (up, name) ∈ files
  · obtain ⟨-, data, -, -, hdata, -⟩ := (h.saved up name hmem).file
    exact ⟨data, hdata⟩
  · obtain ⟨⟨data, hdata, -⟩, -⟩ := h.unsaved hbare hfile hmem
    exact ⟨data, hdata⟩

/-- With a backup the file is saved. -/
theorem backed (hnot : (up, name) ∉ files) {kept : FileData} (hkept : kept.content = first.content)
    (hreadable : fs.mayRead kept.permissions = true)
    (hshort : ¬255 < (name ++ BackupPolicy.suffix ++ bytes ".tmp.0123456789").length) (hplain : fs'.Plain start)
    (hf : FileSystem.Filled fs (up ++ [name ++ BackupPolicy.suffix]) kept fs') :
    Wrote fs₀ start (insert (up, name) files) fs' := by
  have hfirst (up' name') (hmem : (up', name') ∈ files) : ∃ data, fs₀.entry? (up' ++ [name']) = some (.file data) := by
    obtain ⟨data, -, -, hdata, -⟩ := (h.saved up' name' hmem).file
    exact ⟨data, hdata⟩
  refine ⟨hplain, fun up' name' hmem => ?_, fun here hhere => ?_⟩
  · obtain heq | hbefore := Set.mem_insert_iff.mp hmem
    · cases heq
      obtain ⟨⟨data, hdata, -⟩, -⟩ := h.unsaved hbare hfile hnot
      refine ⟨⟨first, data, kept, hfile, ?_, hf.here, hkept, FileSystem.mayRead_congr hf.privileged hreadable⟩, hshort⟩
      rw [hf.elsewhere _ (hbare.ne_backup hfile), hdata]
    · have hsaved := h.saved up' name' hbefore
      obtain ⟨first', data, kept', hfirst', hdata, hkept', hcontent, hreadable'⟩ := hsaved.file
      refine ⟨⟨first', data, kept', hfirst', ?_, ?_, hcontent, FileSystem.mayRead_congr hf.privileged hreadable'⟩,
        hsaved.short⟩
      · rw [hf.elsewhere _ (hbare.ne_backup hfirst'), hdata]
      · rw [hf.elsewhere, hkept']
        intro heq
        obtain ⟨rfl, hname⟩ := place_inj heq
        rw [List.append_cancel_right hname] at hbefore
        exact hnot hbefore
  · have hself := hhere up name (Set.mem_insert ..)
    rw [FileSystem.shown, hf.elsewhere here hself.2]
    exact h.others here fun up' name' hmem => hhere up' name' (Set.mem_insert_of_mem _ hmem)

omit hfile in
/-- A saved file may be written. -/
theorem written (hmem : (up, name) ∈ files) {new : FileData} (hf : FileSystem.Filled fs (up ++ [name]) new fs')
    (hplain : fs'.Plain start) : Wrote fs₀ start files fs' := by
  obtain ⟨first, -, -, hfile, -⟩ := (h.saved up name hmem).file
  refine ⟨hplain, fun up' name' hmem' => ?_, fun here hhere => ?_⟩
  · have hsaved := h.saved up' name' hmem'
    obtain ⟨first', data, kept, hfirst', hdata, hkept, hcontent, hreadable⟩ := hsaved.file
    have hreadable' := FileSystem.mayRead_congr hf.privileged hreadable
    have hkept' : fs'.entry? (up' ++ [name' ++ BackupPolicy.suffix]) = some (.file kept) := by
      rw [hf.elsewhere _ (hbare.ne_backup hfile).symm, hkept]
    by_cases heq : up' ++ [name'] = up ++ [name]
    · exact ⟨⟨first', new, kept, hfirst', heq ▸ hf.here, hkept', hcontent, hreadable'⟩, hsaved.short⟩
    · refine ⟨⟨first', data, kept, hfirst', ?_, hkept', hcontent, hreadable'⟩, hsaved.short⟩
      rw [hf.elsewhere _ heq, hdata]
  · rw [FileSystem.shown, hf.elsewhere here (hhere up name hmem).1]
    exact h.others here hhere

end File

section Tree

variable (h : Wrote fs₀ start files fs) (htree : fs₀.Plain start) (hbare : Unbacked fs₀)

include h hbare

/-- Directories stay. -/
theorem directory {here : Location} (hhere : fs₀.entry? here = some .directory) : fs.entry? here = some .directory := by
  have hsame : fs.shown here = fs₀.shown here := by
    apply h.others
    intro up name hmem
    obtain ⟨first, -, -, hfirst, -⟩ := (h.saved up name hmem).file
    constructor
    · intro heq
      rw [heq, hfirst] at hhere
      cases hhere
    · intro heq
      rw [heq, hbare.clear up name first hfirst] at hhere
      cases hhere
  unfold FileSystem.shown at hsame
  rw [hhere] at hsame
  cases hentry : fs.entry? here with
  | none =>
    rw [hentry] at hsame
    cases hsame
  | some entry =>
    rw [hentry] at hsame
    cases entry with
    | directory => rfl
    | file data => cases hsame
    | link target => cases hsame

include htree

/-- Paths that led to something still lead there. -/
theorem locate {here : Location} (hlocate : fs₀.locate .thing path = .ok here) : fs.locate .thing path = .ok here := by
  have hstart : fs.start? path = fs₀.start? path := by
    rw [FileSystem.start?, FileSystem.start?, h.plain.workplace, htree.workplace]
  rw [FileSystem.locate_eq] at hlocate ⊢
  rw [hstart]
  cases hbegin : fs₀.start? path with
  | none =>
    rw [hbegin] at hlocate
    cases hlocate
  | some begin =>
    rw [hbegin] at hlocate
    refine FileSystem.follow_still htree.unlinked rfl (fun here hhere => h.directory hbare hhere) (fun here data hdata => ?_) hlocate
    obtain hnil | ⟨up, name, hconcat⟩ := List.eq_nil_or_concat here
    · rw [hnil] at hdata
      cases hdata
    · rw [List.concat_eq_append] at hconcat
      rw [hconcat] at hdata ⊢
      exact h.there hbare hdata

omit htree in
/-- What has the name of a backup is the backup of a saved file. -/
theorem saved_of_suffix {data : FileData} (hfile : fs.entry? (up ++ [name]) = some (.file data))
    (hname : BackupPolicy.suffix <:+ name) : ∃ front, name = front ++ BackupPolicy.suffix ∧ (up, front) ∈ files := by
  by_contra hnot
  have hfirst : ∀ up' name', (up', name') ∈ files → up ++ [name] ≠ up' ++ [name'] := by
    intro up' name' hmem heq
    obtain ⟨first, -, -, hfirst, -⟩ := (h.saved up' name' hmem).file
    rw [← heq] at hfirst
    exact hbare.named up name first hfirst hname
  have hsame : fs.shown (up ++ [name]) = fs₀.shown (up ++ [name]) := by
    apply h.others
    intro up' name' hmem
    refine ⟨hfirst up' name' hmem, fun heq => ?_⟩
    obtain ⟨rfl, hsplit⟩ := place_inj heq
    exact hnot ⟨name', hsplit, hmem⟩
  obtain ⟨found, hfound, -⟩ := file_of_shown hsame.symm hfile
  exact hbare.named up name found hfound hname

end Tree

end Wrote

end Files

namespace Workspace.Disk

variable {d d' : Disk} {fs fs' : FileSystem} {path content : Bytes} {result : Except Fault Unit}

/-- Where a file can be replaced as soon as it is backed up, it is not backed up in vain. -/
theorem overwrite_whole (h : d.overwrite fs false path content = (result, d', fs'))
    (hwritable : ∀ made fs₁ permissions, Backup.create fs false path d.policy = .ok (made, fs₁) →
      ∃ fs₂, fs₁.replace false path content permissions = .ok fs₂) :
    (fs' = fs ∧ (result = .ok () → d.dryRun = true)) ∨
    ∃ made fs₁ permissions, Backup.create fs false path d.policy = .ok (made, fs₁) ∧
      (d.Readable fs → fs₁.mayRead permissions = true) ∧ fs₁.replace false path content permissions = .ok fs' ∧
      (result = .ok () ∨ ∃ e, Snapshot.take fs' false path = .error e) := by
  rw [overwrite_eq] at h
  split at h
  · cases h
    exact .inl ⟨rfl, nofun⟩
  · next file d₁ hknown =>
    have hmode (hreadable : d.Readable fs) := (hreadable.known hknown).1
    obtain ⟨rfl, hpolicy, hdry, -⟩ := known_cases hknown
    rw [← hpolicy] at hwritable ⊢
    split at h
    · next hd =>
      cases h
      exact .inl ⟨rfl, fun _ => hdry ▸ hd⟩
    · unfold commit at h
      split at h
      · cases h
        exact .inl ⟨rfl, nofun⟩
      · split at h
        · cases h
          exact .inl ⟨rfl, nofun⟩
        · next made fs₁ hcreate =>
          obtain ⟨fs₂, hreplace⟩ := hwritable made fs₁ file.snapshot.permissions hcreate
          dsimp only at h
          rw [hreplace] at h
          refine .inr ⟨made, fs₁, file.snapshot.permissions, hcreate, fun hreadable =>
            FileSystem.mayRead_congr (Backup.privileged_create hcreate) (hmode hreadable), ?_⟩
          dsimp only at h
          split at h
          · next e htake =>
            cases h
            exact ⟨hreplace, .inr ⟨e, htake⟩⟩
          · cases h
            exact ⟨hreplace, .inl rfl⟩

end Workspace.Disk

namespace Files.Wrote

variable {fs₀ fs fs' : FileSystem} {start up : Location} {name path content : Bytes} {files : Set (Location × Bytes)}
  {first : FileData}

section File

variable (h : Wrote fs₀ start files fs) (hbare : Unbacked fs₀) (hp : Path.Points start path up name)
  (hfile : fs₀.entry? (up ++ [name]) = some (.file first))

include h hbare hp hfile

/-- Backing a file up saves it. -/
theorem create {policy : BackupPolicy} {made : Bool} (htarget : policy.target? path = some (path ++ BackupPolicy.suffix))
    (hcreate : Backup.create fs false path policy = .ok (made, fs')) :
    Wrote fs₀ start (insert (up, name) files) fs' := by
  obtain ⟨data, hdata⟩ := h.there hbare hfile
  have hup : fs.entry? up = some .directory := by
    apply h.plain.parent up name
    rw [hdata]
    simp
  have hname : Spelled (name ++ BackupPolicy.suffix) := hp.spelled.append (by decide) (by decide)
  have hplace : Path.Points start (path ++ BackupPolicy.suffix) up (name ++ BackupPolicy.suffix) := hp.append hname
  obtain ⟨-, rfl, hthere⟩ | ⟨-, place, here, data', hplace', hlacks, hholds, hreplace⟩ := Backup.create_cases hcreate
  · -- there is something in the place of the backup, so the file was saved before
    have hmem : (up, name) ∈ files := by
      by_contra hnot
      obtain ⟨there, hlocate⟩ := hthere _ htarget
      obtain ⟨-, hnone⟩ := h.unsaved hbare hfile hnot
      rw [h.plain.locate_points hplace hup] at hlocate
      by_cases hshort : 255 < (name ++ BackupPolicy.suffix).length
      · rw [FileSystem.follow_long _ _ _ _ hshort] at hlocate
        cases hlocate
      · rw [FileSystem.follow_none .thing (hp.spelled.proper_append hshort (by decide)) [] hnone] at hlocate
        cases hlocate
    rwa [Set.insert_eq_of_mem hmem]
  · obtain rfl := Option.some.inj (htarget.symm.trans hplace')
    obtain ⟨rfl, rfl⟩ := (h.plain.leads_points hp hup hdata).unique hholds.toLeads
    have hshort := (h.plain.reachable_points hplace hup).mp ((FileSystem.replace_eq_ok false).mp hreplace).2.1
    have hproper : FileSystem.Proper (name ++ BackupPolicy.suffix) := by
      apply hp.spelled.proper_append _ (by decide)
      rw [List.length_append] at hshort
      omega
    obtain ⟨hkind, -, hf⟩ := h.plain.filled_points hplace hup hproper hreplace
    have hnot : (up, name) ∉ files := by
      intro hmem
      obtain ⟨-, -, kept, -, -, hkept, -⟩ := (h.saved up name hmem).file
      have hnone := (h.plain.leads_points hplace hup hkept).locate.symm.trans hlacks
      cases hnone
    obtain ⟨⟨data', hdata', hcontent⟩, -⟩ := h.unsaved hbare hfile hnot
    cases hdata.symm.trans hdata'
    have hnew : (fs.written data'.content data'.permissions).content = first.content := hcontent
    have hreadable := FileSystem.mayRead_written hholds.readable data'.content
    exact h.backed hbare hfile hnot hnew hreadable hshort (h.plain.filled hup ⟨hname, hproper⟩ hkind hf) hf

/-- A file that is saved can be replaced, and stays saved. -/
theorem replace (hmem : (up, name) ∈ files) (content : Bytes) (permissions : Nat) :
    ∃ fs', fs.replace false path content permissions = .ok fs' ∧ Wrote fs₀ start files fs' ∧
      FileSystem.Filled fs (up ++ [name]) (fs.written content permissions) fs' := by
  obtain ⟨data, hdata⟩ := h.there hbare hfile
  have hthere : fs.entry? (up ++ [name]) ≠ none := by
    rw [hdata]
    simp
  have hup := h.plain.parent up name hthere
  have hname := h.plain.named up name hthere
  have hkind : fs.entry? (up ++ [name]) ≠ some .directory := by
    rw [hdata]
    simp
  have hshort : ¬255 < (name ++ bytes ".tmp.0123456789").length := by
    have hlong := (h.saved up name hmem).short
    rw [List.length_append, List.length_append] at hlong
    rw [List.length_append]
    omega
  obtain ⟨fs', hreplace⟩ := h.plain.exists_replace_points hp hup hname.2 hkind hshort content permissions
  obtain ⟨-, -, hf⟩ := h.plain.filled_points hp hup hname.2 hreplace
  exact ⟨fs', hreplace, h.written hbare hmem hf (h.plain.filled hup hname hkind hf), hf⟩

/-- A file that is overwritten is saved; if it cannot be, nothing happens. -/
theorem overwrite {d d' : Disk} {result : Except Fault Unit} (hdry : d.dryRun = false) (hreadable : d.Readable fs)
    (htarget : d.policy.target? path = some (path ++ BackupPolicy.suffix))
    (hrun : d.overwrite fs false path content = (result, d', fs')) :
    (result = .ok () ∧ Wrote fs₀ start (insert (up, name) files) fs') ∨ (result ≠ .ok () ∧ Wrote fs₀ start files fs') := by
  have hmem : (up, name) ∈ insert (up, name) files := Set.mem_insert ..
  obtain ⟨rfl, hresult⟩ | ⟨made, fs₁, permissions, hcreate, hmode, hreplace, hresult⟩ :=
      Disk.overwrite_whole hrun fun made fs₁ permissions hcreate => by
    obtain ⟨fs₂, hreplace, -⟩ := (h.create hbare hp hfile htarget hcreate).replace hbare hp hfile hmem content permissions
    exact ⟨fs₂, hreplace⟩
  · refine .inr ⟨fun hok => ?_, h⟩
    rw [hresult hok] at hdry
    cases hdry
  · have hsaved := h.create hbare hp hfile htarget hcreate
    obtain ⟨fs₂, hreplace', hwrote, hf⟩ := hsaved.replace hbare hp hfile hmem content permissions
    obtain rfl := Except.ok.inj (hreplace.symm.trans hreplace')
    refine .inl ⟨hresult.resolve_right fun herror => ?_, hwrote⟩
    -- what was written can be read again
    obtain ⟨e, htake⟩ := herror
    have hup := hwrote.plain.parent up name (by rw [hf.here]; simp)
    have hholds : fs'.Holds path (up ++ [name]) (fs₁.written content permissions) :=
      ⟨hwrote.plain.leads_points hp hup hf.here,
        FileSystem.mayRead_congr hf.privileged (FileSystem.mayRead_written (hmode hreadable) content)⟩
    rw [Snapshot.take_of_holds hholds] at htake
    cases htake

/-- Without a backup nothing is restored. -/
theorem restore_of_not_mem (hnot : (up, name) ∉ files) (hshort : ¬255 < (name ++ BackupPolicy.suffix).length) :
    Backup.restore fs false path "sidecar" = .ok (false, fs) := by
  obtain ⟨⟨data, hdata, -⟩, hnone⟩ := h.unsaved hbare hfile hnot
  have hup := h.plain.parent up name (by rw [hdata]; simp)
  have hname : Spelled (name ++ BackupPolicy.suffix) := hp.spelled.append (by decide) (by decide)
  apply Backup.restore_of_lacks (by decide)
  exact h.plain.lacks_points (hp.append hname) hup (hp.spelled.proper_append hshort (by decide)) hnone

/-- Restoring a saved file brings back what it held first, and its backup is gone. -/
theorem restore_of_mem (hmem : (up, name) ∈ files) :
    ∃ fs', Backup.restore fs false path "sidecar" = .ok (true, fs') ∧ Wrote fs₀ start (files \ {(up, name)}) fs' := by
  obtain ⟨first', data, kept, hfirst, hdata, hkept, hcontent, hreadable⟩ := (h.saved up name hmem).file
  have hup := h.plain.parent up name (by rw [hdata]; simp)
  have hname : Spelled (name ++ BackupPolicy.suffix) := hp.spelled.append (by decide) (by decide)
  have hplace : Path.Points start (path ++ BackupPolicy.suffix) up (name ++ BackupPolicy.suffix) := hp.append hname
  obtain ⟨fs₁, hreplace, hwrote, hf⟩ := h.replace hbare hp hfile hmem kept.content kept.permissions
  have hbackup : fs₁.entry? (up ++ [name ++ BackupPolicy.suffix]) = some (.file kept) := by
    rw [hf.elsewhere _ (hbare.ne_backup hfirst).symm, hkept]
  have hup' := hwrote.plain.parent up _ (by rw [hbackup]; simp)
  refine ⟨fs₁.erase (up ++ [name ++ BackupPolicy.suffix]), ?_, hwrote.plain.erased hbackup, fun up' name' hmem' => ?_,
    fun here hhere => ?_⟩
  · have hremove : fs₁.remove (path ++ BackupPolicy.suffix) = .ok (fs₁.erase (up ++ [name ++ BackupPolicy.suffix])) := by
      unfold FileSystem.remove
      rw [hwrote.plain.locate_name, (hwrote.plain.leads_points hplace hup' hbackup).locate]
      dsimp only
      rw [hbackup]
      rfl
    unfold Backup.restore Backup.discard
    rw [if_neg Bool.false_ne_true, BackupPolicy.place?_eq (by decide)]
    dsimp only
    rw [Snapshot.take_of_holds ⟨h.plain.leads_points hplace hup hkept, hreadable⟩]
    dsimp only [Snapshot.ofFile]
    rw [hreplace]
    dsimp only
    rw [hremove]
    rfl
  · -- the other files have other backups
    obtain ⟨hmem', hne⟩ := hmem'
    have hsaved := hwrote.saved up' name' hmem'
    obtain ⟨first'', data', kept', hfirst', hdata', hkept', hcontent', hreadable'⟩ := hsaved.file
    refine ⟨⟨first'', data', kept', hfirst', ?_, ?_, hcontent', hreadable'⟩, hsaved.short⟩
    · rw [hwrote.plain.entry?_erase_file hbackup, if_neg (hbare.ne_backup hfirst'), hdata']
    · rw [hwrote.plain.entry?_erase_file hbackup, if_neg, hkept']
      intro heq
      obtain ⟨rfl, hsame⟩ := place_inj heq
      rw [List.append_cancel_right hsame] at hne
      exact hne rfl
  · rw [FileSystem.shown, hwrote.plain.entry?_erase_file hbackup]
    by_cases hplace : here = up ++ [name ++ BackupPolicy.suffix]
    · rw [if_pos hplace, hplace, FileSystem.shown, hbare.clear up name first' hfirst]
    · rw [if_neg hplace]
      by_cases hself : here = up ++ [name]
      · rw [hself, hf.here, FileSystem.shown, hfirst]
        simp only [Option.map_some, Entry.bare, FileSystem.written, hcontent]
      · apply hwrote.others here
        intro up' name' hmem'
        by_cases heq : (up', name') = (up, name)
        · cases heq
          exact ⟨hself, hplace⟩
        · exact hhere up' name' ⟨hmem', heq⟩

end File

/-- Restoring files one after the other. -/
theorem restoreAll (hbare : Unbacked fs₀) {paths : List Bytes}
    (hpaths : ∀ p ∈ paths, ∃ up name first, Path.Points start p up name ∧ fs₀.entry? (up ++ [name]) = some (.file first) ∧
      ¬255 < (name ++ BackupPolicy.suffix).length)
    (r : Command.Restoration) (h : Wrote fs₀ start files r.files) :
    Wrote fs₀ start (files \ {x | ∃ p ∈ paths, Path.Points start p x.1 x.2})
      (paths.foldl (Command.Restoration.step false) r).files := by
  induction paths generalizing files r with
  | nil => simpa using h
  | cons p rest ih =>
    obtain ⟨⟨up, name, first, hp, hfile, hshort⟩, hrest⟩ := List.forall_mem_cons.mp hpaths
    have hstep : Wrote fs₀ start (files \ {(up, name)}) (r.step false p).files := by
      unfold Command.Restoration.step
      by_cases hmem : (up, name) ∈ files
      · obtain ⟨fs', hrestore, hwrote⟩ := h.restore_of_mem hbare hp hfile hmem
        rw [hrestore]
        exact hwrote
      · rw [h.restore_of_not_mem hbare hp hfile hmem hshort, Set.sdiff_singleton_eq_self hmem]
        exact h
    have hsame : files \ {x | ∃ q ∈ p :: rest, Path.Points start q x.1 x.2} =
        (files \ {(up, name)}) \ {x | ∃ q ∈ rest, Path.Points start q x.1 x.2} := by
      rw [sdiff_sdiff_left]
      congr 1
      ext x
      simp only [List.mem_cons, exists_eq_or_imp, Set.mem_ofPred_eq, Set.sup_eq_union, Set.singleton_union, Set.mem_insert_iff]
      apply or_congr_left
      constructor
      · intro hx
        obtain ⟨hup, hname⟩ := hp.unique hx
        exact Prod.ext hup hname
      · intro hx
        rwa [hx]
    rw [List.foldl_cons, hsame]
    exact ih hrest (r.step false p) hstep

end Files.Wrote

end Codemod
