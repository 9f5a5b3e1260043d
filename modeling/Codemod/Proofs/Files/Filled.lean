import Codemod.Proofs.Files.Walk

namespace Codemod.Files.FileSystem

/-- Where a path starts, unless it leads nowhere. -/
def start? (fs : FileSystem) (path : Bytes) : Option Location :=
  if path.isEmpty then none else if Path.isAbsolute path then some [] else fs.workplace

/-- The places that are looked at on a path. -/
def looks (fs : FileSystem) (aim : Aim) (path : Bytes) : List Location :=
  match fs.start? path with
  | none => []
  | some start => fs.looked aim linkLimit start (pathNames path)

theorem locate_eq (fs : FileSystem) (aim : Aim) (path : Bytes) : fs.locate aim path =
    match fs.start? path with
    | none => .error .noEntry
    | some start => fs.follow aim linkLimit start (pathNames path) := by
  unfold locate locateWith start?
  by_cases hempty : path.isEmpty = true
  · rw [if_pos hempty, if_pos hempty]
  · rw [if_neg hempty, if_neg hempty]
    rfl

/-- The working directory, if there is one, is there. -/
def Grounded (fs : FileSystem) : Prop := ∀ here, fs.workplace = some here → fs.Ground here

theorem Grounded.start {fs : FileSystem} (h : fs.Grounded) {path : Bytes} {here : Location}
    (hstart : fs.start? path = some here) : fs.Ground here := by
  unfold start? at hstart
  split at hstart
  · cases hstart
  · split at hstart
    · cases hstart
      exact ground_nil
    · exact h here hstart

theorem locate_congr {fs fs' : FileSystem} (hwork : fs'.workplace = fs.workplace) {aim : Aim} {path : Bytes}
    (h : ∀ w ∈ fs.looks aim path, fs'.entry? w = fs.entry? w) :
    fs'.locate aim path = fs.locate aim path ∧ fs'.looks aim path = fs.looks aim path := by
  have hstart : fs'.start? path = fs.start? path := by rw [start?, start?, hwork]
  rw [locate_eq, locate_eq, looks, looks, hstart]
  rw [looks] at h
  cases hs : fs.start? path with
  | none => exact ⟨rfl, rfl⟩
  | some start =>
    rw [hs] at h
    exact follow_congr h

section Paths

variable {fs : FileSystem} {path : Bytes} {w loc : Location}

/-- What a path leads to, if it is no directory, is looked at. -/
theorem mem_looks_of_locate (hfs : fs.Grounded) {aim : Aim} (h : fs.locate aim path = .ok loc)
    (hkind : fs.entry? loc ≠ some .directory) : loc ∈ fs.looks aim path := by
  rw [locate_eq] at h
  rw [looks]
  cases hs : fs.start? path with
  | none =>
    rw [hs] at h
    cases h
  | some start =>
    rw [hs] at h
    exact mem_looked_of_follow (hfs.start hs) h hkind

/-- What is looked at is not below anything but directories. -/
theorem not_above_of_mem_looks (hfs : fs.Grounded) {aim : Aim} (hw : fs.entry? w ≠ some .directory)
    (hloc : loc ∈ fs.looks aim path) (hne : w ≠ loc) : ¬w <+: loc := by
  rw [looks] at hloc
  cases hs : fs.start? path with
  | none =>
    rw [hs] at hloc
    cases hloc
  | some start =>
    rw [hs] at hloc
    obtain ⟨-, h, n, -, rfl, -, hground, -⟩ := exists_of_mem_looked (hfs.start hs) hloc
    intro hprefix
    exact (List.prefix_concat_iff.mp hprefix).elim hne (hground.not_above hw)

theorem looks_subset_thing (fs : FileSystem) (aim : Aim) (path : Bytes) : fs.looks aim path ⊆ fs.looks .thing path := by
  rw [looks, looks]
  cases fs.start? path with
  | none => exact List.Subset.refl _
  | some start => exact looked_subset_thing fs aim linkLimit start (pathNames path)

/-- The last name of a path that does not lead to a directory. -/
theorem exists_lastName (hfs : fs.Grounded) {aim : Aim} (h : fs.locate aim path = .ok loc)
    (hkind : fs.entry? loc ≠ some .directory) :
    ∃ k h n, Proper n ∧ fs.Ground h ∧ ∀ aim, fs.locate aim path = fs.follow aim k h [n] ∧
      h ++ [n] ∈ fs.looks aim path := by
  simp only [locate_eq, looks] at h ⊢
  cases hs : fs.start? path with
  | none =>
    rw [hs] at h
    cases h
  | some start =>
    rw [hs] at h
    exact exists_last (hfs.start hs) h hkind

/-- The place of a name is where it stands. -/
theorem follow_slot {k : Nat} {h : Location} {n : Bytes} (hn : Proper n) :
    fs.follow .slot k h [n] = .ok (h ++ [n]) := by
  cases he : fs.entry? (h ++ [n]) with
  | none => exact follow_none .slot hn [] he
  | some entry =>
    cases entry with
    | file data => exact follow_file .slot hn [] he
    | directory =>
      rw [follow_directory .slot hn [] he]
      exact follow_nil ..
    | link target => exact follow_link .slot hn [] he

/-- A file that stands in the place of a path is what the path leads to. -/
theorem locate_of_slot (hfs : fs.Grounded) (h : fs.locate .slot path = .ok w) {data : FileData}
    (hw : fs.entry? w = some (.file data)) (aim : Aim) : fs.locate aim path = .ok w := by
  obtain ⟨k, here, n, hn, -, hlast⟩ := exists_lastName hfs h (by rw [hw]; simp)
  have hsame := h.symm.trans ((hlast .slot).1.trans (follow_slot hn))
  obtain rfl := Except.ok.inj hsame
  rw [(hlast aim).1, follow_file aim hn [] hw]
  rfl

/-- No path leads past the place of a name that does not lead to a directory. -/
theorem barred_of_slot (hfs : fs.Grounded) (h : fs.locate .slot path = .ok w)
    (hw : fs.entry? w ≠ some .directory) (hloop : fs.locate .thing path ≠ .error .loop)
    (hkind : ∀ loc, fs.locate .thing path = .ok loc → fs.entry? loc ≠ some .directory) :
    fs.Barred w (fs.locate .thing path) ∧ w ∈ fs.looks .thing path := by
  obtain ⟨k, here, n, hn, hground, hlast⟩ := exists_lastName hfs h hw
  have hsame := h.symm.trans ((hlast .slot).1.trans (follow_slot hn))
  obtain rfl := Except.ok.inj hsame
  refine ⟨?_, (hlast .thing).2⟩
  rw [(hlast .thing).1] at hloop hkind ⊢
  have hpast := follow_append hground hloop hkind
  refine ⟨hw, fun {aim k' h' n' rest loc} hsplit hloc => ?_, fun {k' h' n' rest loc} hsplit hloc => ?_,
    fun {k' h' n' rest} hsplit hloc => ?_⟩
  · obtain ⟨rfl, hlist⟩ := List.append_inj' hsplit rfl
    obtain rfl := List.singleton_inj.mp hlist
    exact (hpast aim k' rest).1 loc hloc
  · obtain ⟨rfl, hlist⟩ := List.append_inj' hsplit rfl
    obtain rfl := List.singleton_inj.mp hlist
    exact (hpast .thing k' rest).2.1 loc rfl hloc
  · obtain ⟨rfl, hlist⟩ := List.append_inj' hsplit rfl
    obtain rfl := List.singleton_inj.mp hlist
    exact (hpast .thing k' rest).2.2 hloc

/-- Whatever path comes to a barred place leads where the bar says. -/
theorem Barred.of_mem {result : Except Errno Location} (hw : fs.Barred w result) (hfs : fs.Grounded)
    (hmem : w ∈ fs.looks .thing path) :
    (∀ loc, fs.locate .thing path = .ok loc → result = .ok loc) ∧
      (fs.locate .thing path = .error .noEntry → result = .error .noEntry) := by
  rw [locate_eq]
  rw [looks] at hmem
  cases hs : fs.start? path with
  | none =>
    rw [hs] at hmem
    cases hmem
  | some start =>
    rw [hs] at hmem
    obtain ⟨k, h, n, rest, hsplit, -, -, hfollow⟩ := exists_of_mem_looked (hfs.start hs) hmem
    dsimp only
    rw [hfollow hw.kind fs fun _ _ => rfl]
    exact ⟨fun loc hloc => hw.thing hsplit hloc, fun habsent => hw.absent hsplit habsent⟩

end Paths

/-- A file has been put in a place; all else is as it was. -/
structure Filled (fs : FileSystem) (w : Location) (data : FileData) (fs' : FileSystem) : Prop where
  here : fs'.entry? w = some (.file data)
  elsewhere : ∀ v, v ≠ w → fs'.entry? v = fs.entry? v
  workplace : fs'.workplace = fs.workplace
  privileged : fs'.privileged = fs.privileged

namespace Filled

variable {fs fs' : FileSystem} {w : Location} {data : FileData} (hf : Filled fs w data fs') {aim : Aim} {path : Bytes}

include hf

theorem apart (v : Location) (hv : ¬w <+: v) : fs'.entry? v = fs.entry? v := by
  apply hf.elsewhere
  rintro rfl
  exact hv List.prefix_rfl

theorem grounded (hfs : fs.Grounded) (hw : fs.entry? w ≠ some .directory) : fs'.Grounded := by
  intro here hhere v hv
  rw [hf.workplace] at hhere
  have hne : v ≠ w := by
    rintro rfl
    exact (hfs here hhere).not_above hw hv
  rw [hf.elsewhere v hne]
  exact hfs here hhere v hv

/-- Paths that do not come by lead where they led. -/
theorem locate_of_not_mem (hmem : w ∉ fs.looks aim path) :
    fs'.locate aim path = fs.locate aim path ∧ fs'.looks aim path = fs.looks aim path := by
  apply locate_congr hf.workplace
  intro v hv
  apply hf.elsewhere
  rintro rfl
  exact hmem hv

theorem locate_of_not_mem_after (hmem : w ∉ fs'.looks aim path) : fs.locate aim path = fs'.locate aim path := by
  apply (locate_congr hf.workplace.symm ?_).1
  intro v hv
  refine (hf.elsewhere v ?_).symm
  rintro rfl
  exact hmem hv

/-- A path that came by a barred place and led somewhere leads there now. -/
theorem locate_of_mem {result : Except Errno Location} (hw : fs.Barred w result) (hfs : fs.Grounded)
    (hmem : w ∈ fs.looks aim path) {loc : Location} (hloc : fs.locate aim path = .ok loc) :
    fs'.locate aim path = .ok w := by
  have hstart : fs'.start? path = fs.start? path := by rw [start?, start?, hf.workplace]
  rw [locate_eq] at hloc ⊢
  rw [looks] at hmem
  rw [hstart]
  cases hs : fs.start? path with
  | none =>
    rw [hs] at hmem
    cases hmem
  | some start =>
    rw [hs] at hmem hloc
    obtain ⟨k, h, n, rest, hsplit, hn, -, hfollow⟩ := exists_of_mem_looked (hfs.start hs) hmem
    dsimp only at hloc ⊢
    rw [hfollow hw.kind fs fun _ _ => rfl] at hloc
    obtain ⟨rfl, -⟩ := hw.ends hsplit hloc
    rw [hfollow hw.kind fs' hf.apart, follow_file aim hn [] (hsplit ▸ hf.here), hsplit]
    rfl

/-- Where something could be found, something can be found. -/
theorem locate_ok {result : Except Errno Location} (hw : fs.Barred w result) (hfs : fs.Grounded) {loc : Location}
    (hloc : fs.locate aim path = .ok loc) : ∃ loc', fs'.locate aim path = .ok loc' := by
  by_cases hmem : w ∈ fs.looks aim path
  · exact ⟨w, hf.locate_of_mem hw hfs hmem hloc⟩
  · exact ⟨loc, (hf.locate_of_not_mem hmem).1.trans hloc⟩

/-- What leads nowhere does not come by a file. -/
theorem not_mem_of_absent (hfs : fs'.Grounded) (h : fs'.locate .thing path = .error .noEntry) :
    w ∉ fs'.looks .thing path := by
  intro hmem
  rw [locate_eq] at h
  rw [looks] at hmem
  cases hs : fs'.start? path with
  | none =>
    rw [hs] at hmem
    cases hmem
  | some start =>
    rw [hs] at hmem h
    obtain ⟨k, here, n, rest, hsplit, hn, -, hfollow⟩ := exists_of_mem_looked (hfs.start hs) hmem
    have hkind : fs'.entry? w ≠ some .directory := by
      rw [hf.here]
      simp
    dsimp only at h
    rw [hfollow hkind fs' fun _ _ => rfl, follow_file .thing hn rest (hsplit ▸ hf.here)] at h
    split at h <;> cases h

/-- Paths do not come by more places than before. -/
theorem looks_subset (aim : Aim) (path : Bytes) : fs'.looks aim path ⊆ fs.looks aim path := by
  have hstart : fs'.start? path = fs.start? path := by rw [start?, start?, hf.workplace]
  rw [looks, looks, hstart]
  cases fs.start? path with
  | none => exact List.Subset.refl _
  | some start =>
    dsimp only
    generalize linkLimit = links, pathNames path = names
    induction links, start, names using walk_induction fs' with
    | nil links here => rw [looked_nil, looked_nil]; exact List.Subset.refl _
    | long links here name rest hlong =>
      rw [looked_long _ _ _ _ hlong, looked_long _ _ _ _ hlong]
      exact List.Subset.refl _
    | dot links here rest ih => rwa [looked_dot, looked_dot]
    | up links here rest ih => rwa [looked_up, looked_up]
    | seen links here name rest hname ihdir ihlink =>
      rw [looked_seen aim hname, looked_seen aim hname]
      apply List.cons_subset_cons
      by_cases hw : here ++ [name] = w
      · rw [hw, hf.here]
        exact List.nil_subset _
      · have hsame := hf.elsewhere _ hw
        rw [hsame] at ihdir ihlink ⊢
        cases he : fs.entry? (here ++ [name]) with
        | none => exact List.Subset.refl _
        | some entry =>
          cases entry with
          | file data => exact List.Subset.refl _
          | directory => exact ihdir he
          | link target =>
            dsimp only
            split
            · exact List.Subset.refl _
            · cases links with
              | zero => exact List.Subset.refl _
              | succ links => exact ihlink target links he rfl

end Filled

/-- A place has been taken away with all that is below it. -/
structure Cleared (fs : FileSystem) (w : Location) (fs' : FileSystem) : Prop where
  here : fs'.entry? w = none
  elsewhere : ∀ v, ¬w <+: v → fs'.entry? v = fs.entry? v
  workplace : fs'.workplace = fs.workplace
  privileged : fs'.privileged = fs.privileged

namespace Cleared

variable {fs fs' : FileSystem} {w : Location} (hc : Cleared fs w fs') (hfs : fs.Grounded)
  (hkind : fs.entry? w ≠ some .directory) {aim : Aim} {path : Bytes}

include hc hfs hkind

theorem locate_of_not_mem (hmem : w ∉ fs.looks aim path) : fs'.locate aim path = fs.locate aim path := by
  apply (locate_congr hc.workplace ?_).1
  intro v hv
  apply hc.elsewhere
  apply not_above_of_mem_looks hfs hkind hv
  rintro rfl
  exact hmem hv

/-- Paths that come by lead nowhere. -/
theorem locate_of_mem (hmem : w ∈ fs.looks .thing path) : fs'.locate .thing path = .error .noEntry := by
  have hstart : fs'.start? path = fs.start? path := by rw [start?, start?, hc.workplace]
  rw [looks] at hmem
  rw [locate_eq, hstart]
  cases hs : fs.start? path with
  | none => rfl
  | some start =>
    rw [hs] at hmem
    obtain ⟨k, h, n, rest, hsplit, hn, -, hfollow⟩ := exists_of_mem_looked (hfs.start hs) hmem
    dsimp only
    rw [hfollow hkind fs' hc.elsewhere, follow_none .thing hn rest (hsplit ▸ hc.here)]
    rfl

end Cleared

end Codemod.Files.FileSystem
