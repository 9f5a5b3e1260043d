import Codemod.Command.Restore
import Codemod.Proofs.Files.Plain
import Codemod.Proofs.Run.GivenUp
import Codemod.Proofs.Run.Steps

namespace Codemod

open Files Workspace

namespace Files

/-- A directory that is reached from another one through none of some names. -/
def Below (skipped : List Bytes) (here up : Location) : Prop := ∃ between, up = here ++ between ∧ ∀ n ∈ between, n ∉ skipped

theorem below_self (skipped : List Bytes) (here : Location) : Below skipped here here :=
  ⟨[], (List.append_nil _).symm, fun _ hn => absurd hn List.not_mem_nil⟩

theorem Below.cons {skipped : List Bytes} {here up : Location} {name : Bytes} (hname : name ∉ skipped)
    (h : Below skipped (here ++ [name]) up) : Below skipped here up := by
  obtain ⟨between, rfl, hbetween⟩ := h
  exact ⟨name :: between, by rw [List.append_assoc]; rfl, List.forall_mem_cons.mpr ⟨hname, hbetween⟩⟩

namespace FileSystem

section Names

variable {fs : FileSystem} {here : Location}

theorem mem_names {name : Bytes} : name ∈ fs.names here ↔ fs.entry? (here ++ [name]) ≠ none := by
  have hentry : fs.entry? (here ++ [name]) = fs.entries.lookup (here ++ [name]) := if_neg (by simp)
  rw [hentry, ← Option.isSome_iff_ne_none, List.lookup_isSome_iff, names, (Bytes.sort_perm _).mem_iff, List.mem_filterMap]
  constructor
  · intro hmem
    obtain ⟨⟨place, entry⟩, hplace, hname⟩ := hmem
    dsimp only at hname
    split at hname
    · next last hlast =>
      split at hname
      · next hdrop =>
        refine ⟨_, hplace, ?_⟩
        rw [beq_iff_eq, ← hdrop, ← Option.some.inj hname]
        exact List.dropLast_append_getLast? last hlast
      · cases hname
    · cases hname
  · intro hmem
    obtain ⟨⟨place, entry⟩, hplace, heq⟩ := hmem
    obtain rfl : here ++ [name] = place := by simpa using heq
    refine ⟨_, hplace, ?_⟩
    simp

theorem Plain.entry_above {start above : Location} (h : fs.Plain start) (hhere : fs.entry? here ≠ none) (habove : above <+: here) :
    fs.entry? above ≠ none := by
  obtain hnil | ⟨up, name, hconcat⟩ := List.eq_nil_or_concat here
  · rw [hnil, List.prefix_nil] at habove
    rw [habove]
    exact nofun
  · rw [List.concat_eq_append] at hconcat
    rw [hconcat] at hhere habove
    obtain heq | hup := List.prefix_concat_iff.mp habove
    · rwa [heq]
    · rw [h.ground (h.parent up name hhere) above hup]
      simp

/-- There are as many entries as there are steps down to one of them. -/
theorem Plain.length_le {start : Location} (h : fs.Plain start) (hhere : fs.entry? here ≠ none) :
    here.length ≤ fs.entries.length := by
  let above := (List.range here.length).map fun n => here.take (n + 1)
  have hlength : above.length = here.length := by simp [above]
  have hnodup : above.Nodup := by
    apply List.Nodup.map_on _ List.nodup_range
    intro m hm n hn heq
    have hboth := congrArg List.length heq
    rw [List.mem_range] at hm hn
    rw [List.length_take, List.length_take] at hboth
    omega
  have hsubset : above ⊆ fs.entries.map Prod.fst := by
    intro place hplace
    obtain ⟨n, hn, rfl⟩ := List.mem_map.mp hplace
    rw [List.mem_range] at hn
    have hthere : fs.entry? (here.take (n + 1)) ≠ none := h.entry_above hhere (List.take_prefix ..)
    have hne : (here.take (n + 1)).isEmpty = false := by
      rw [List.isEmpty_eq_false_iff, ne_eq, List.take_eq_nil_iff, not_or]
      exact ⟨Nat.succ_ne_zero n, List.ne_nil_of_length_pos (Nat.zero_lt_of_lt hn)⟩
    unfold entry? at hthere
    rw [hne, if_neg Bool.false_ne_true, ← Option.isSome_iff_ne_none, List.lookup_isSome_iff] at hthere
    obtain ⟨found, hfound, heq⟩ := hthere
    rw [beq_iff_eq] at heq
    exact List.mem_map.mpr ⟨found, hfound, heq.symm⟩
  calc
    here.length = above.length := hlength.symm
    _ ≤ (fs.entries.map Prod.fst).length := (hnodup.subperm hsubset).length_le
    _ = fs.entries.length := List.length_map ..

end Names

end FileSystem

namespace Backup

variable {fs : FileSystem} {start here : Location} {above path : Bytes} {skipped : List Bytes}

theorem mem_ownersInAll {branches : List Branch} {q : Bytes} :
    q ∈ ownersInAll skipped above branches ↔ ∃ branch ∈ branches, q ∈ ownersIn skipped above branch := by
  induction branches with
  | nil => simp [ownersInAll]
  | cons branch rest ih => rw [ownersInAll, List.mem_append, ih, List.exists_mem_cons_iff]

theorem mem_owner? {q : Bytes} : q ∈ (owner? path).toList ↔ path = q ++ BackupPolicy.suffix := by
  unfold owner? Bytes.endsWith Bytes.dropTail Bytes.endsWith
  by_cases hend : BackupPolicy.suffix.isSuffixOf path = true
  · obtain ⟨front, rfl⟩ := List.isSuffixOf_iff_suffix.mp hend
    rw [if_pos hend, if_pos hend]
    simp [eq_comm]
  · rw [if_neg hend]
    constructor
    · intro hq
      cases hq
    · intro hpath
      rw [hpath] at hend
      exact absurd (List.isSuffixOf_iff_suffix.mpr (List.suffix_append ..)) hend

/-- A suffix without a slash that ends a path ends its last name. -/
theorem suffix_of_append {front name : Bytes} (hfront : front = [] ∨ ∃ p, front = p ++ [slash])
    (h : BackupPolicy.suffix <:+ front ++ name) : BackupPolicy.suffix <:+ name := by
  obtain rfl | ⟨p, rfl⟩ := hfront
  · rwa [List.nil_append] at h
  · obtain hname | hlong := List.suffix_or_suffix_of_suffix h (List.suffix_append (p ++ [slash]) name)
    · exact hname
    · obtain ⟨more, hmore⟩ := hlong
      obtain hnil | ⟨rest, last, hlast⟩ := List.eq_nil_or_concat more
      · rw [← hmore, hnil, List.nil_append]
      · -- the byte before the name would be the slash
        rw [List.concat_eq_append] at hlast
        obtain ⟨before, hbefore⟩ := h
        rw [← hmore, hlast, ← List.append_assoc, ← List.append_assoc] at hbefore
        have hheads := List.append_cancel_right hbefore
        have hslash : slash = last := (List.singleton_inj.mp (List.append_inj' hheads rfl).2).symm
        have hmem : slash ∈ BackupPolicy.suffix := by
          rw [← hmore, hlast, hslash]
          simp
        exact absurd hmem (by decide)

section Owners

variable (h : fs.Plain start) (habove : above ≠ [])
  (hhere : Path.along (if Path.isAbsolute above then [] else start) (Path.parts above) = here)

include h habove hhere

/-- What is found in the branches of a directory. -/
theorem mem_ownersInAll_branchesTo (hdirectory : fs.entry? here = some .directory) (depth : Nat) {q : Bytes}
    (hq : q ∈ ownersInAll skipped above (fs.branchesTo depth here)) :
    ∃ up name data, Below skipped here up ∧ Path.Points start (q ++ BackupPolicy.suffix) up name ∧
      BackupPolicy.suffix <:+ name ∧ fs.entry? (up ++ [name]) = some (.file data) := by
  induction depth generalizing above here with
  | zero => cases hq
  | succ depth ih =>
    obtain ⟨branch, hbranch, hq⟩ := mem_ownersInAll.mp hq
    obtain ⟨name, hname, rfl⟩ := List.mem_map.mp hbranch
    have hthere := FileSystem.mem_names.mp hname
    obtain ⟨hspelled, hproper⟩ := h.named here name hthere
    have hpoints := Path.points_join habove hspelled hproper.ne_up hhere
    cases hentry : fs.entry? (here ++ [name]) with
    | none => exact absurd hentry hthere
    | some entry =>
      rw [hentry] at hq
      cases entry with
      | link target => exact absurd hentry (h.unlinked _ target)
      | directory =>
        have hq' : q ∈ if skipped.contains name then [] else
            ownersInAll skipped (Path.join [above, name]) (fs.branchesTo depth (here ++ [name])) := hq
        split at hq'
        · cases hq'
        · next hskip =>
          obtain ⟨hne, halong⟩ := hpoints.along_parts hproper.ne_up
          obtain ⟨up, last, data, hbelow, hfound⟩ := ih hne halong hentry hq'
          exact ⟨up, last, data, hbelow.cons (by simpa using hskip), hfound⟩
      | file data =>
        have hq' : q ∈ (owner? (Path.join [above, name])).toList := hq
        rw [mem_owner?] at hq'
        refine ⟨here, name, data, below_self skipped here, hq' ▸ hpoints, ?_, hentry⟩
        obtain ⟨rooted, names, hjoin, -⟩ := hpoints
        rw [Path.ofParts_concat] at hjoin
        apply suffix_of_append (Path.front_cases rooted names)
        rw [← hjoin, hq']
        exact List.suffix_append ..

/-- All backups that are reached are found. -/
theorem exists_mem_ownersInAll {between : Location} {name : Bytes} {data : FileData}
    (hbetween : ∀ n ∈ between, n ∉ skipped) (hfile : fs.entry? (here ++ between ++ [name]) = some (.file data))
    (hname : BackupPolicy.suffix <:+ name) {depth : Nat} (hdepth : between.length < depth) :
    ∃ q ∈ ownersInAll skipped above (fs.branchesTo depth here),
      Path.Points start (q ++ BackupPolicy.suffix) (here ++ between) name := by
  induction between generalizing above here depth with
  | nil =>
    obtain ⟨depth, rfl⟩ : ∃ n, depth = n + 1 := Nat.exists_eq_add_one.mpr hdepth
    rw [List.append_nil] at hfile ⊢
    have hthere : fs.entry? (here ++ [name]) ≠ none := by
      rw [hfile]
      simp
    obtain ⟨hspelled, hproper⟩ := h.named here name hthere
    have hpoints := Path.points_join habove hspelled hproper.ne_up hhere
    obtain ⟨q, hq⟩ : ∃ q, Path.join [above, name] = q ++ BackupPolicy.suffix := by
      obtain ⟨rooted, names, hjoin, -⟩ := hpoints
      obtain ⟨front, hfront⟩ := hname
      rw [hjoin, Path.ofParts_concat, ← hfront, ← List.append_assoc]
      exact ⟨_, rfl⟩
    refine ⟨q, mem_ownersInAll.mpr ⟨.file name, ?_, mem_owner?.mpr hq⟩, hq ▸ hpoints⟩
    refine List.mem_map.mpr ⟨name, FileSystem.mem_names.mpr hthere, ?_⟩
    rw [hfile]
  | cons next between ih =>
    obtain ⟨depth, rfl⟩ : ∃ n, depth = n + 1 := Nat.exists_eq_add_one.mpr (Nat.zero_lt_of_lt hdepth)
    obtain ⟨hnext, hbetween⟩ := List.forall_mem_cons.mp hbetween
    have hsplit : here ++ next :: between = here ++ [next] ++ between := by
      rw [List.append_assoc]
      rfl
    rw [hsplit] at hfile ⊢
    have hup := h.parent _ _ (by rw [hfile]; simp)
    have hdirectory : fs.entry? (here ++ [next]) = some .directory := h.ground hup _ (List.prefix_append ..)
    have hthere : fs.entry? (here ++ [next]) ≠ none := by
      rw [hdirectory]
      simp
    obtain ⟨hspelled, hproper⟩ := h.named here next hthere
    obtain ⟨hne, halong⟩ := (Path.points_join habove hspelled hproper.ne_up hhere).along_parts hproper.ne_up
    obtain ⟨q, hq, hpoints⟩ := ih hne halong hbetween hfile (Nat.lt_of_succ_lt_succ hdepth)
    refine ⟨q, mem_ownersInAll.mpr ⟨.directory next (fs.branchesTo depth (here ++ [next])), ?_, ?_⟩, hpoints⟩
    · refine List.mem_map.mpr ⟨next, FileSystem.mem_names.mpr hthere, ?_⟩
      rw [hdirectory]
    · have hskip : ¬skipped.contains next = true := by simpa using hnext
      rw [ownersIn, if_neg hskip]
      exact hq

end Owners

variable {root : Bytes}

/-- Below a directory the search finds the files whose backups it reaches. -/
theorem find_directory (h : fs.Plain start) (hlocate : fs.locate .thing root = .ok here)
    (hdirectory : fs.entry? here = some .directory) (skipped : List Bytes) :
    ∃ found, find fs false root skipped = .ok found ∧
      (∀ q ∈ found, ∃ up name data, Below skipped here up ∧ Path.Points start (q ++ BackupPolicy.suffix) up name ∧
        BackupPolicy.suffix <:+ name ∧ fs.entry? (up ++ [name]) = some (.file data)) ∧
      ∀ up name data, Below skipped here up → BackupPolicy.suffix <:+ name → fs.entry? (up ++ [name]) = some (.file data) →
        ∃ q ∈ found, Path.Points start (q ++ BackupPolicy.suffix) up name := by
  obtain ⟨hne, hhere, -⟩ := h.along_of_locate rfl hlocate
  have hname : fs.locate .name root = .ok here := (h.locate_name root).trans hlocate
  have hnowhere : leadsNowhere fs root = false := by
    rw [leadsNowhere, h.workplace]
    rfl
  have hstatus : fs.linkStatus root = .ok (FileSystem.statusOf .directory) := by
    rw [FileSystem.linkStatus, FileSystem.statusAt, hname]
    dsimp only
    rw [hdirectory]
    rfl
  refine ⟨Bytes.sort (ownersInAll skipped root (fs.branches here)), ?_, fun q hq => ?_, fun up name data hbelow hsuffix hfile => ?_⟩
  · unfold find
    rw [hnowhere]
    dsimp only
    rw [if_neg Bool.false_ne_true, hstatus]
    dsimp only [FileSystem.statusOf]
    rw [if_neg Bool.false_ne_true, if_neg Bool.false_ne_true, if_pos rfl, hname]
  · exact mem_ownersInAll_branchesTo h hne hhere.symm hdirectory _ ((Bytes.sort_perm _).mem_iff.mp hq)
  · obtain ⟨between, rfl, hbetween⟩ := hbelow
    have hdepth : between.length < fs.entries.length := by
      have hlength : (here ++ between ++ [name]).length ≤ fs.entries.length := h.length_le (by rw [hfile]; simp)
      rw [List.length_append, List.length_append, List.length_singleton] at hlength
      omega
    obtain ⟨q, hq, hpoints⟩ := exists_mem_ownersInAll h hne hhere.symm hbetween hfile hsuffix hdepth
    exact ⟨q, (Bytes.sort_perm _).mem_iff.mpr hq, hpoints⟩

/-- Asked for a file, the search only looks at its name. -/
theorem find_file (h : fs.Plain start) {up : Location} {name : Bytes} {data : FileData}
    (hlocate : fs.locate .thing root = .ok (up ++ [name])) (hfile : fs.entry? (up ++ [name]) = some (.file data))
    (hname : ¬BackupPolicy.suffix <:+ name) (skipped : List Bytes) : find fs false root skipped = .ok [] := by
  obtain ⟨hne, hhere, -⟩ := h.along_of_locate rfl hlocate
  have hlink : fs.locate .name root = .ok (up ++ [name]) := (h.locate_name root).trans hlocate
  have hnowhere : leadsNowhere fs root = false := by
    rw [leadsNowhere, h.workplace]
    rfl
  have hstatus : fs.linkStatus root = .ok (FileSystem.statusOf (.file data)) := by
    rw [FileSystem.linkStatus, FileSystem.statusAt, hlink]
    dsimp only
    rw [hfile]
    rfl
  have hroot : ¬BackupPolicy.suffix <:+ root := by
    intro hsuffix
    obtain ⟨front, last, hroot, hslash, hfront⟩ := Path.exists_lastName root
    rw [hroot] at hsuffix
    have hlast := suffix_of_append hfront hsuffix
    have hlength : 14 ≤ last.length := hlast.length_le
    have hspelled : Spelled last := by
      refine ⟨fun hnil => ?_, fun hdot => ?_, hslash⟩
      · rw [hnil] at hlength
        cases hlength
      · rw [hdot] at hlength
        exact absurd hlength (by decide)
    have hup : bytes ".." ∉ [last] := by
      intro hmem
      rw [← List.mem_singleton.mp hmem] at hlength
      exact absurd hlength (by decide)
    obtain ⟨before, hparts⟩ : ∃ before, Path.parts root = before ++ [last] := by
      obtain hnil | ⟨p, hp⟩ := hfront
      · exact ⟨[], by rw [hroot, hnil]; exact Path.parts_name hspelled⟩
      · refine ⟨Path.parts p, ?_⟩
        rw [hroot, hp, List.append_assoc, List.singleton_append, Path.parts_append, Path.parts_name hspelled]
    rw [hparts, Path.along_append, Path.along_of_not_mem _ hup] at hhere
    exact hname ((List.singleton_inj.mp (List.append_inj' hhere rfl).2) ▸ hlast)
  have hnone : owner? root = none := by
    rw [owner?, if_neg]
    rwa [Bytes.endsWith, List.isSuffixOf_iff_suffix]
  unfold find
  rw [hnowhere]
  dsimp only
  rw [if_neg Bool.false_ne_true, hstatus]
  dsimp only [FileSystem.statusOf]
  rw [if_neg Bool.false_ne_true, if_neg Bool.false_ne_true, if_neg Bool.false_ne_true, hnone]
  rfl

end Backup

end Files

namespace Files.FileSystem

theorem pathOf_ne_nil (here : Location) : pathOf here ≠ [] := by
  rw [pathOf, Path.ofParts, if_pos rfl, Path.bytes_slash]
  simp

namespace Plain

variable {fs : FileSystem} {start here : Location} (h : fs.Plain start)

include h

theorem join_pathOf (hhere : fs.entry? here ≠ none) {name : Bytes} (hname : Spelled name) (hne : name ≠ bytes "..") :
    Path.join [pathOf here, name] = pathOf (here ++ [name]) := by
  have hspelled (n : Bytes) (hn : n ∈ here) : Spelled n := (h.names hhere n hn).1
  have habsolute : Path.isAbsolute (pathOf here) = true := Path.isAbsolute_ofParts fun n hn => (hspelled n hn).plain
  rw [Path.join_name (pathOf_ne_nil here) hname hne, habsolute, Path.cleanParts_pathOf hspelled (h.not_up_mem hhere)]
  rfl

theorem points_pathOf {up : Location} {name : Bytes} (hthere : fs.entry? (up ++ [name]) ≠ none) :
    Path.Points start (pathOf (up ++ [name])) up name := by
  apply Path.points_pathOf start fun n hn => (h.names hthere n hn).1
  intro hup
  exact h.not_up_mem hthere (List.mem_append_left _ hup)

theorem locate_pathOf (hhere : fs.entry? here = some .directory) (aim : Aim) : fs.locate aim (pathOf here) = .ok here := by
  obtain hnil | ⟨up, name, hconcat⟩ := List.eq_nil_or_concat here
  · rw [hnil]
    show fs.follow aim linkLimit [] [bytes "."] = .ok []
    rw [follow_dot, follow_nil]
  · rw [List.concat_eq_append] at hconcat
    subst hconcat
    have hthere : fs.entry? (up ++ [name]) ≠ none := by
      rw [hhere]
      simp
    rw [h.locate_points (h.points_pathOf hthere) (h.parent up name hthere),
      follow_directory aim (h.named up name hthere).2 [] hhere, follow_nil]

/-- The absolute form of a path that leads somewhere. -/
theorem absolute_of_locate {path : Bytes} (hlocate : fs.locate .thing path = .ok here) :
    (if Path.isAbsolute path then Path.clean path else Path.join [pathOf start, path]) = pathOf here := by
  obtain ⟨hne, hhere, -⟩ := h.along_of_locate rfl hlocate
  by_cases habsolute : Path.isAbsolute path = true
  · rw [if_pos habsolute] at hhere ⊢
    exact Path.clean_absolute habsolute hhere.symm
  · rw [if_neg habsolute] at hhere ⊢
    have hstart : fs.entry? start ≠ none := by
      rw [h.start]
      simp
    have hparts : Path.parts (pathOf start) = start := Path.parts_ofParts fun n hn => (h.names hstart n hn).1
    rw [Path.join_pair (pathOf_ne_nil start) hne]
    apply Path.clean_absolute rfl
    rw [Path.parts_append, Path.along_append, hparts, Path.along_of_not_mem [] (h.not_up_mem hstart), hhere,
      List.nil_append]

end Plain

end Files.FileSystem

namespace Run

open Options

theorem lists_add {s : FileSet} {kind : Kind} {path q : Bytes} (h : (s.add kind path).Lists q) : s.Lists q ∨ q = path := by
  obtain ⟨kind', hq⟩ := h
  have hsort (l : List Bytes) : q ∈ Bytes.sort l ↔ q ∈ l := (Bytes.sort_perm l).mem_iff
  suffices hmem : q ∈ s.files kind' ∨ q = path from hmem.imp (fun hmem => ⟨kind', hmem⟩) id
  cases kind' <;> cases kind <;> simp_all [FileSet.add, FileSet.files]

variable {t : Terms} {start here : Location}

theorem consider_lists {s s' : Search} {path q : Bytes} (h : t.consider s path = .ok s') (hq : s'.found.Lists q) :
    s.found.Lists q ∨ q = path := by
  unfold Terms.consider at h
  split at h
  · cases h
    exact .inl hq
  · split at h
    · split at h
      · cases h
        exact .inl hq
      · cases h
    · split at h
      · cases h
        exact .inl hq
      · cases h
        exact lists_add hq

theorem meetFile_lists {s s' : Search} {path q : Bytes} (h : t.meetFile s path = .ok s') (hq : s'.found.Lists q) :
    s.found.Lists q ∨ q = path := by
  unfold Terms.meetFile at h
  split at h
  · cases h
    exact .inl hq
  · cases hconsider : t.consider s path with
    | error e =>
      rw [hconsider] at h
      cases h
    | ok found =>
      rw [hconsider] at h
      cases h
      exact consider_lists hconsider hq

theorem walkBranches_lists {enter : Bytes → Search → Except Halt Search} {above : Bytes} {R : Bytes → Prop}
    {branches : List Branch}
    (hbranch : ∀ branch ∈ branches, ∀ s s', t.walkBranch enter above branch s = .ok s' →
      ∀ q, s'.found.Lists q → s.found.Lists q ∨ R q)
    {s s' : Search} (h : t.walkBranches enter above branches s = .ok s') {q : Bytes} (hq : s'.found.Lists q) :
    s.found.Lists q ∨ R q := by
  induction branches generalizing s with
  | nil =>
    cases h
    exact .inl hq
  | cons branch rest ih =>
    obtain ⟨hfirst, hrest⟩ := List.forall_mem_cons.mp hbranch
    rw [Terms.walkBranches] at h
    cases hwalk : t.walkBranch enter above branch s with
    | error e =>
      rw [hwalk] at h
      cases h
    | ok s₁ =>
      rw [hwalk] at h
      obtain hbefore | hR := ih hrest h
      · exact hfirst s s₁ hwalk q hbefore
      · exact .inr hR

/-- A file in a directory, or below it where backups are searched. -/
def Reached (fs : FileSystem) (here : Location) (q : Bytes) : Prop :=
  ∃ up name data, q = FileSystem.pathOf (up ++ [name]) ∧ Below Command.unsearched here up ∧
    fs.entry? (up ++ [name]) = some (.file data)

/-- Where backups are not searched, there are no files to migrate. -/
theorem passes_of_mem_unsearched {name : Bytes} (h : name ∈ Command.unsearched) (path : Bytes) : t.passes name path = true := by
  have hall : ∀ n ∈ Command.unsearched, (Terms.isHidden n || skippedDirectories.contains n) = true := by decide
  rw [Terms.passes, hall name h, Bool.true_or]

theorem walkBranchesTo_lists (h : t.files.Plain start) (hhere : t.files.entry? here = some .directory)
    {enter : Bytes → Search → Except Halt Search} {depth : Nat} {s s' : Search}
    (hwalk : t.walkBranches enter (FileSystem.pathOf here) (t.files.branchesTo depth here) s = .ok s') {q : Bytes}
    (hq : s'.found.Lists q) : s.found.Lists q ∨ Reached t.files here q := by
  induction depth generalizing here s s' q with
  | zero =>
    cases hwalk
    exact .inl hq
  | succ depth ih =>
    refine walkBranches_lists (fun branch hbranch s s' hstep q' hq' => ?_) hwalk hq
    obtain ⟨name, hname, rfl⟩ := List.mem_map.mp hbranch
    have hthere := FileSystem.mem_names.mp hname
    obtain ⟨hspelled, hproper⟩ := h.named here name hthere
    have hjoin : Path.join [FileSystem.pathOf here, name] = FileSystem.pathOf (here ++ [name]) :=
      h.join_pathOf (by rw [hhere]; simp) hspelled hproper.ne_up
    cases hentry : t.files.entry? (here ++ [name]) with
    | none => exact absurd hentry hthere
    | some entry =>
      rw [hentry] at hstep
      cases entry with
      | link target => exact absurd hentry (h.unlinked _ target)
      | directory =>
        dsimp only at hstep
        rw [Terms.walkBranch, hjoin] at hstep
        split at hstep
        · cases hstep
          exact .inl hq'
        · next hpasses =>
          obtain hbefore | ⟨up, last, data, hpath, hbelow, hfile⟩ := ih hentry hstep hq'
          · exact .inl hbefore
          · refine .inr ⟨up, last, data, hpath, hbelow.cons ?_, hfile⟩
            intro hskip
            exact hpasses (passes_of_mem_unsearched hskip _)
      | file data =>
        dsimp only at hstep
        rw [Terms.walkBranch, hjoin] at hstep
        obtain hbefore | hpath := meetFile_lists hstep hq'
        · exact .inl hbefore
        · exact .inr ⟨here, name, data, hpath, below_self _ here, hentry⟩

theorem walk_lists (h : t.files.Plain start) (hhere : t.files.entry? here = some .directory) {levels : Nat} {s s' : Search}
    (hwalk : t.walk levels (FileSystem.pathOf here) s = .ok s') {q : Bytes} (hq : s'.found.Lists q) :
    s.found.Lists q ∨ Reached t.files here q := by
  cases levels with
  | zero => cases hwalk
  | succ levels =>
    rw [Terms.walk, h.locate_pathOf hhere] at hwalk
    dsimp only at hwalk
    rw [hhere] at hwalk
    dsimp only at hwalk
    cases hbranches : t.walkBranches (t.walk levels) (FileSystem.pathOf here) (t.files.branches here) s with
    | error e =>
      rw [hbranches] at hwalk
      cases hwalk
    | ok found =>
      rw [hbranches] at hwalk
      cases hwalk
      exact walkBranchesTo_lists h hhere hbranches hq

/-- A file argument itself, or what is reached from a directory argument. -/
def Meant (fs : FileSystem) (arg q : Bytes) : Prop :=
  ∃ here, fs.locate .thing arg = .ok here ∧
    ((fs.entry? here = some .directory ∧ Reached fs here q) ∨
      (∃ data, fs.entry? here = some (.file data)) ∧ q = FileSystem.pathOf here)

theorem search_lists (h : t.files.Plain start) (hroot : t.root = FileSystem.pathOf start) {arg : Bytes}
    (hlocate : t.files.locate .thing arg = .ok here) {s s' : Search} (hsearch : t.search s arg = .ok s') {q : Bytes}
    (hq : s'.found.Lists q) : s.found.Lists q ∨ Meant t.files arg q := by
  obtain ⟨-, -, hthere⟩ := h.along_of_locate rfl hlocate
  rw [Terms.search, hroot, h.absolute_of_locate hlocate] at hsearch
  cases hentry : t.files.entry? here with
  | none => exact absurd hentry hthere
  | some entry =>
    cases entry with
    | link target => exact absurd hentry (h.unlinked _ target)
    | directory =>
      have hstatus : t.files.status (FileSystem.pathOf here) = .ok (FileSystem.statusOf .directory) := by
        rw [FileSystem.status, FileSystem.statusAt, h.locate_pathOf hentry]
        dsimp only
        rw [hentry]
        rfl
      rw [hstatus] at hsearch
      exact (walk_lists h hentry hsearch hq).imp id fun hreached => ⟨here, hlocate, .inl ⟨hentry, hreached⟩⟩
    | file data =>
      obtain ⟨up, name, rfl⟩ : ∃ up name, here = up ++ [name] := by
        obtain hnil | ⟨up, name, hconcat⟩ := List.eq_nil_or_concat here
        · rw [hnil] at hentry
          cases hentry
        · exact ⟨up, name, hconcat.trans (List.concat_eq_append ..)⟩
      have hpoints := h.points_pathOf hthere
      rw [(h.leads_points hpoints (h.parent up name hthere) hentry).status] at hsearch
      dsimp only at hsearch
      rw [if_neg Bool.false_ne_true] at hsearch
      cases hconsider : t.consider s (FileSystem.pathOf (up ++ [name])) with
      | error e =>
        rw [hconsider] at hsearch
        cases hsearch
      | ok found =>
        rw [hconsider] at hsearch
        cases hsearch
        exact (consider_lists hconsider hq).imp id fun hpath => ⟨_, hlocate, .inr ⟨⟨data, hentry⟩, hpath⟩⟩

theorem foldlM_search_lists (h : t.files.Plain start) (hroot : t.root = FileSystem.pathOf start) {args : List Bytes}
    (hargs : ∀ arg ∈ args, ∃ here, t.files.locate .thing arg = .ok here) {s s' : Search}
    (hsearch : args.foldlM t.search s = .ok s') {q : Bytes} (hq : s'.found.Lists q) :
    s.found.Lists q ∨ ∃ arg ∈ args, Meant t.files arg q := by
  induction args generalizing s with
  | nil =>
    cases hsearch
    exact .inl hq
  | cons arg rest ih =>
    obtain ⟨⟨here, hhere⟩, hrest⟩ := List.forall_mem_cons.mp hargs
    rw [List.foldlM_cons] at hsearch
    cases hfirst : t.search s arg with
    | error e =>
      rw [hfirst] at hsearch
      cases hsearch
    | ok s₁ =>
      rw [hfirst] at hsearch
      obtain hbefore | ⟨arg', harg', hmeant⟩ := ih hrest hsearch
      · obtain hbefore | hmeant := search_lists h hroot hhere hfirst hbefore
        · exact .inl hbefore
        · exact .inr ⟨arg, List.mem_cons_self .., hmeant⟩
      · exact .inr ⟨arg', List.mem_cons_of_mem _ harg', hmeant⟩

/-- What is discovered is what a search finds for all targets. -/
theorem exists_search_of_discover {fs : FileSystem} {o : Options} {cancelled : Bool} {files : FileSet}
    (h : discover fs cancelled o = .ok files) : ∃ root classifier s, rootDirectory fs o = .ok root ∧
      o.targets.foldlM (Terms.search ⟨fs, root, o.excludedPatterns, classifier, o.followLinks⟩) ⟨[], .empty⟩ = .ok s ∧
      files = s.found := by
  obtain ⟨t, hbegins, s, hsearch, rfl⟩ := discover_eq_ok.mp h
  obtain ⟨_, root, excluded, classifier, followLinks⟩ := t
  obtain ⟨-, rfl, hroot, rfl, -, rfl⟩ := hbegins
  exact ⟨root, classifier, s, hroot, hsearch, rfl⟩

/-- All files discovered are meant by the arguments. -/
theorem discover_lists {fs : FileSystem} (h : fs.Plain start) {o : Options} {cancelled : Bool} {files : FileSet}
    (hroot : rootDirectory fs o = .ok (FileSystem.pathOf start))
    (hargs : ∀ arg ∈ o.targets, ∃ here, fs.locate .thing arg = .ok here) (hdiscover : discover fs cancelled o = .ok files)
    {q : Bytes} (hq : files.Lists q) : ∃ arg ∈ o.targets, Meant fs arg q := by
  obtain ⟨root, classifier, s, hroot', hsearch, rfl⟩ := exists_search_of_discover hdiscover
  rw [hroot] at hroot'
  cases hroot'
  obtain hempty | hmeant := foldlM_search_lists h rfl hargs hsearch hq
  · obtain ⟨kind, hmem⟩ := hempty
    cases kind <;> simp [FileSet.files, FileSet.empty, Bytes.sort] at hmem
  · exact hmeant

end Run

end Codemod
