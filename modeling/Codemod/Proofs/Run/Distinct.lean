import Codemod.Proofs.Markup.Parsed
import Codemod.Proofs.Run.Discovered
import Codemod.Proofs.Run.Steps

namespace Codemod

open Files Workspace

namespace Workspace.FileSet

/-- All files of a set, in the order in which they were found. -/
def listed (s : FileSet) : List Bytes := s.templates ++ (s.styles ++ s.sources)

/-- All files of a set, sorted kind by kind. -/
def paths (s : FileSet) : List Bytes := s.files .template ++ (s.files .style ++ s.files .source)

theorem paths_perm (s : FileSet) : s.paths.Perm s.listed :=
  (Bytes.sort_perm _).append ((Bytes.sort_perm _).append (Bytes.sort_perm _))

theorem add_listed (s : FileSet) (kind : Kind) (path : Bytes) :
    (s.add kind path).listed.Perm (path :: s.listed) ∨ s.add kind path = s := by
  cases kind with
  | template =>
    left
    simp only [add, listed, List.append_assoc, List.singleton_append]
    exact List.perm_middle
  | style =>
    left
    simp only [add, listed, List.append_assoc, List.singleton_append]
    exact (List.Perm.append_left _ List.perm_middle).trans List.perm_middle
  | source =>
    left
    simp only [add, listed, ← List.append_assoc]
    exact List.perm_append_singleton ..
  | other code => exact .inr rfl

end Workspace.FileSet

namespace Pattern.Regex

/-- Read all of a notation in at most so many steps. -/
def readAll (steps : Nat) (s : List Char) : Option Regex :=
  match read (steps + 1) none empty s with
  | some (r, []) => some r
  | _ => none

theorem ofString?_eq (s : String) : ofString? s = readAll s.length s.toList := rfl

theorem ofString?_ofList (l : List Char) : ofString? (String.ofList l) = readAll l.length l := by
  rw [ofString?_eq, String.length_ofList, String.toList_ofList]

/-- Texts and their characters. -/
inductive Letters : List String → List (List Char) → Prop
  | nil : Letters [] []
  | cons (l : List Char) {texts : List String} {letters : List (List Char)} : Letters texts letters →
      Letters (String.ofList l :: texts) (l :: letters)

theorem filterMap_letters {letters : List (List Char)} (texts : List String) (h : Letters texts letters) :
    texts.filterMap ofString? = letters.filterMap fun l => readAll l.length l := by
  induction h with
  | nil => rfl
  | cons l _ ih => rw [List.filterMap_cons, List.filterMap_cons, ofString?_ofList, ih]

end Pattern.Regex

namespace Run

variable {t : Terms}

section Preserved

variable {P : Search → Prop} {R : Bytes → Prop} {s s' : Search} {path : Bytes}
  (hconsider : ∀ s s' path, R path → t.consider s path = .ok s' → P s → P s')

include hconsider

theorem meetFile_preserves (hpath : R path) (h : t.meetFile s path = .ok s') (hs : P s) : P s' := by
  unfold Terms.meetFile at h
  split at h
  · cases h
    exact hs
  · exact hconsider s s' path hpath (Markup.Stack.mapError_ok h) hs

theorem meetLink_preserves (hpath : R path) {enter : Bytes → Search → Except Halt Search}
    (henter : ∀ target s s', t.files.resolve? path = some target → enter target s = .ok s' → P s → P s')
    (h : t.meetLink enter s path = .ok s') (hs : P s) : P s' := by
  unfold Terms.meetLink at h
  split at h
  · cases h
    exact hs
  · next target htarget =>
    split at h
    · split at h
      · exact henter target s s' htarget h hs
      · cases h
        exact hs
    · exact meetFile_preserves hconsider hpath h hs

end Preserved

theorem walkBranches_preserves {P : Search → Prop} {enter : Bytes → Search → Except Halt Search} {above : Bytes}
    {branches : List Branch}
    (hbranch : ∀ branch ∈ branches, ∀ s s', t.walkBranch enter above branch s = .ok s' → P s → P s')
    {s s' : Search} (h : t.walkBranches enter above branches s = .ok s') (hs : P s) : P s' := by
  induction branches generalizing s with
  | nil =>
    cases h
    exact hs
  | cons branch rest ih =>
    obtain ⟨hfirst, hrest⟩ := List.forall_mem_cons.mp hbranch
    rw [Terms.walkBranches] at h
    cases hwalk : t.walkBranch enter above branch s with
    | error e =>
      rw [hwalk] at h
      cases h
    | ok s₁ =>
      rw [hwalk] at h
      exact ih hrest h (hfirst s s₁ hwalk hs)

/-- How a search comes to a path: through directories alone, or by a path among some that goes through a link. -/
inductive Approach (fs : FileSystem) (bases : Location → Prop) : Bytes → Prop
  | direct {up : Location} {name : Bytes} : fs.Ground up → fs.entry? (up ++ [name]) ≠ none →
      Approach fs bases (FileSystem.pathOf (up ++ [name]))
  | under {base : Location} (more : Location) : bases base → fs.Crosses base →
      Approach fs bases (FileSystem.pathOf (base ++ more))

/-- The names of a path lead where it says, unless they begin with a path that goes through a link. -/
def Placed (fs : FileSystem) (bases : Location → Prop) (names here : Location) : Prop :=
  names = here ∨ ∃ base, bases base ∧ fs.Crosses base ∧ base <+: names

section Placed

variable {fs : FileSystem} {bases : Location → Prop} {names here : Location}

theorem Placed.snoc (h : Placed fs bases names here) (name : Bytes) : Placed fs bases (names ++ [name]) (here ++ [name]) := by
  obtain rfl | ⟨base, hbase, hcrosses, hbegins⟩ := h
  · exact .inl rfl
  · exact .inr ⟨base, hbase, hcrosses, hbegins.trans (List.prefix_append ..)⟩

theorem placed_of_locate (hnames : Path.Straight names) (hbase : fs.Crosses names → bases names) {aim : Aim}
    (haim : aim.takesNothing = false) (h : fs.locate aim (FileSystem.pathOf names) = .ok here) :
    Placed fs bases names here := by
  by_cases hcrosses : fs.Crosses names
  · exact .inr ⟨names, hbase hcrosses, hcrosses, List.prefix_rfl⟩
  · exact .inl (FileSystem.eq_of_locate hnames hcrosses haim h).symm

theorem Placed.approach (htree : fs.Tree) (h : Placed fs bases names here) (hthere : fs.entry? here ≠ none)
    (hdirectory : fs.entry? here ≠ some .directory) : Approach fs bases (FileSystem.pathOf names) := by
  obtain rfl | ⟨base, hbase, hcrosses, more, rfl⟩ := h
  · obtain hnil | ⟨up, name, hconcat⟩ := List.eq_nil_or_concat names
    · rw [hnil] at hdirectory
      exact absurd rfl hdirectory
    · rw [List.concat_eq_append] at hconcat
      rw [hconcat] at hthere ⊢
      exact .direct (htree.ground (htree.parent up name hthere)) hthere
  · exact .under more hbase hcrosses

end Placed

section Walk

variable {bases : Location → Prop} {P : Search → Prop} (htree : t.files.Tree)
  (hconsider : ∀ s s' path, Approach t.files bases path → t.consider s path = .ok s' → P s → P s')

include htree hconsider

theorem walkBranchesTo_preserves {names here : Location} (hnames : Path.Straight names)
    (hplaced : Placed t.files bases names here) {enter : Bytes → Search → Except Halt Search}
    (henter : ∀ loc s s', Path.Straight loc → ¬t.files.Crosses loc → enter (FileSystem.pathOf loc) s = .ok s' → P s → P s')
    {depth : Nat} {s s' : Search}
    (h : t.walkBranches enter (FileSystem.pathOf names) (t.files.branchesTo depth here) s = .ok s') (hs : P s) : P s' := by
  induction depth generalizing names here s s' with
  | zero =>
    cases h
    exact hs
  | succ depth ih =>
    refine walkBranches_preserves (fun branch hbranch s s' hstep hs => ?_) h hs
    obtain ⟨name, hname, rfl⟩ := List.mem_map.mp hbranch
    have hthere := FileSystem.mem_names.mp hname
    obtain ⟨hspelled, hproper⟩ := htree.named here name hthere
    have hjoin : Path.join [FileSystem.pathOf names, name] = FileSystem.pathOf (names ++ [name]) :=
      Path.join_straight hnames hspelled hproper.ne_up
    have happroach := (hplaced.snoc name).approach htree hthere
    cases hentry : t.files.entry? (here ++ [name]) with
    | none => exact absurd hentry hthere
    | some entry =>
      rw [hentry] at hstep happroach
      cases entry with
      | directory =>
        dsimp only at hstep
        rw [Terms.walkBranch, hjoin] at hstep
        split at hstep
        · cases hstep
          exact hs
        · exact ih (hnames.snoc hspelled hproper.ne_up) (hplaced.snoc name) hstep hs
      | file data =>
        dsimp only at hstep
        rw [Terms.walkBranch, hjoin] at hstep
        exact meetFile_preserves hconsider (happroach (by simp)) hstep hs
      | link target =>
        dsimp only at hstep
        rw [Terms.walkBranch, hjoin] at hstep
        refine meetLink_preserves hconsider (happroach (by simp)) (fun target s s' hresolve hwalk hs => ?_) hstep hs
        obtain ⟨loc, rfl, hloc, huncrossed⟩ := htree.resolve? (Path.isAbsolute_pathOf _) hresolve
        exact henter loc s s' hloc huncrossed hwalk hs

/-- A walk considers the paths of files and of links to files. Through a link to a directory it goes on by the path
of that directory. -/
theorem walk_preserves {levels : Nat} {names : Location} (hnames : Path.Straight names)
    (hbase : t.files.Crosses names → bases names) {s s' : Search}
    (h : t.walk levels (FileSystem.pathOf names) s = .ok s') (hs : P s) : P s' := by
  induction levels generalizing names s s' with
  | zero => cases h
  | succ levels ih =>
    have henter : ∀ loc s s', Path.Straight loc → ¬t.files.Crosses loc →
        t.walk levels (FileSystem.pathOf loc) s = .ok s' → P s → P s' := by
      intro loc s s' hloc huncrossed hwalk hs
      exact ih hloc (fun hcrosses => absurd hcrosses huncrossed) hwalk hs
    rw [Terms.walk] at h
    have hfound := Markup.Stack.mapError_ok h
    cases hlocate : t.files.locate .name (FileSystem.pathOf names) with
    | error e =>
      rw [hlocate] at hfound
      cases hfound
    | ok here =>
      have hplaced := placed_of_locate hnames hbase rfl hlocate
      have happroach := hplaced.approach htree
      rw [hlocate] at hfound
      dsimp only at hfound
      cases hentry : t.files.entry? here with
      | none =>
        rw [hentry] at hfound
        exact walkBranchesTo_preserves htree hconsider hnames hplaced henter hfound hs
      | some entry =>
        rw [hentry] at hfound happroach
        cases entry with
        | directory => exact walkBranchesTo_preserves htree hconsider hnames hplaced henter hfound hs
        | file data => exact meetFile_preserves hconsider (happroach (by simp) (by simp)) hfound hs
        | link target =>
          refine meetLink_preserves hconsider (happroach (by simp) (by simp)) (fun target s s' hresolve hwalk hs => ?_) hfound hs
          obtain ⟨loc, rfl, hloc, huncrossed⟩ := htree.resolve? (Path.isAbsolute_pathOf _) hresolve
          exact henter loc s s' hloc huncrossed hwalk hs

theorem search_preserves (hroot : Path.isAbsolute t.root = true) {arg : Bytes}
    (hbase : ∀ names, argumentPath t.root arg = FileSystem.pathOf names → bases names) {s s' : Search}
    (h : t.search s arg = .ok s') (hs : P s) : P s' := by
  obtain ⟨names, hpath, hnames⟩ : ∃ names, argumentPath t.root arg = FileSystem.pathOf names ∧ Path.Straight names := by
    unfold argumentPath
    split
    · next habsolute => exact Path.exists_straight_clean habsolute
    · exact Path.exists_straight_join hroot arg
  cases hstatus : t.files.status (argumentPath t.root arg) with
  | error e =>
    rw [Terms.search_of_error hstatus] at h
    cases h
  | ok status =>
    rw [Terms.search_of_status hstatus, hpath] at h
    rw [hpath] at hstatus
    split at h
    · exact walk_preserves htree hconsider hnames (fun _ => hbase names hpath) h hs
    · next hdirectory =>
      refine hconsider s s' _ ?_ (Markup.Stack.mapError_ok h) hs
      obtain ⟨here, hlocate⟩ := FileSystem.exists_locate_of_status hstatus
      have hplaced := placed_of_locate hnames (fun _ => hbase names hpath) rfl hlocate
      have hentry : FileSystem.statusOf ((t.files.entry? here).getD .directory) = status := by
        rw [FileSystem.status, FileSystem.statusAt, hlocate] at hstatus
        exact Except.ok.inj hstatus
      refine hplaced.approach htree ?_ ?_
      · intro hnone
        rw [hnone] at hentry
        exact hdirectory (hentry ▸ rfl)
      · intro hsome
        rw [hsome] at hentry
        exact hdirectory (hentry ▸ rfl)

end Walk

/-- A record of what was found: every file once, by a path that is known. -/
structure Recorded (fs : FileSystem) (bases : Location → Prop) (s : Search) : Prop where
  nodup : s.found.listed.Nodup
  seen : ∀ q ∈ s.found.listed, q ∈ s.seen
  approach : ∀ q ∈ s.found.listed, Approach fs bases q
  holds : ∀ q ∈ s.found.listed, ∃ here data, fs.Holds q here data

theorem recorded_empty (fs : FileSystem) (bases : Location → Prop) : Recorded fs bases ⟨[], .empty⟩ :=
  ⟨List.nodup_nil, nofun, nofun, nofun⟩

theorem Recorded.consider {bases : Location → Prop} {s s' : Search} {path : Bytes} (hs : Recorded t.files bases s)
    (hpath : Approach t.files bases path) (h : t.consider s path = .ok s') : Recorded t.files bases s' := by
  unfold Terms.consider at h
  split at h
  · cases h
    exact hs
  · next hskip =>
    cases hread : t.files.read path with
    | error e =>
      rw [hread] at h
      dsimp only at h
      split at h
      · cases h
        exact hs
      · cases h
    | ok content =>
      rw [hread] at h
      dsimp only at h
      split at h
      · cases h
        exact hs
      · next kind hkind =>
        cases h
        obtain ⟨here, data, hholds, -⟩ := FileSystem.exists_holds hread
        have hnew : path ∉ s.seen := by
          intro hseen
          exact hskip (by simp [hseen])
        obtain hperm | hsame := s.found.add_listed kind path
        · have hmem (q : Bytes) : q ∈ (s.found.add kind path).listed ↔ q = path ∨ q ∈ s.found.listed := by
            rw [hperm.mem_iff, List.mem_cons]
          refine ⟨?_, fun q hq => ?_, fun q hq => ?_, fun q hq => ?_⟩
          · exact hperm.nodup_iff.mpr (List.nodup_cons.mpr ⟨fun hlisted => hnew (hs.seen path hlisted), hs.nodup⟩)
          · obtain rfl | hq := (hmem q).mp hq
            · exact List.mem_append_right _ (List.mem_singleton_self _)
            · exact List.mem_append_left _ (hs.seen q hq)
          · obtain rfl | hq := (hmem q).mp hq
            · exact hpath
            · exact hs.approach q hq
          · obtain rfl | hq := (hmem q).mp hq
            · exact ⟨here, data, hholds⟩
            · exact hs.holds q hq
        · rw [hsame]
          exact ⟨hs.nodup, fun q hq => List.mem_append_left _ (hs.seen q hq), hs.approach, hs.holds⟩

theorem foldlM_search_preserves {P : Search → Prop} {args : List Bytes}
    (hsearch : ∀ arg ∈ args, ∀ s s', t.search s arg = .ok s' → P s → P s') {s s' : Search}
    (h : args.foldlM t.search s = .ok s') (hs : P s) : P s' := by
  induction args generalizing s with
  | nil =>
    cases h
    exact hs
  | cons arg rest ih =>
    obtain ⟨hfirst, hrest⟩ := List.forall_mem_cons.mp hsearch
    rw [List.foldlM_cons] at h
    cases hfound : t.search s arg with
    | error e =>
      rw [hfound] at h
      cases h
    | ok s₁ =>
      rw [hfound] at h
      exact ih hrest h (hfirst s s₁ hfound hs)

theorem isAbsolute_rootDirectory {fs : FileSystem} {o : Options} {root : Bytes} (h : rootDirectory fs o = .ok root) :
    Path.isAbsolute root = true := by
  have hstart {path : Bytes} (h : fs.workingDirectory = .ok path) : Path.isAbsolute path = true := by
    unfold FileSystem.workingDirectory at h
    split at h
    · cases h
      exact Path.isAbsolute_pathOf _
    · cases h
  replace h := Markup.Stack.mapError_ok h
  split at h
  · exact hstart (Markup.Stack.mapError_ok h)
  · replace h := Markup.Stack.mapError_ok h
    unfold FileSystem.absolute at h
    split at h
    · next hpath =>
      cases h
      exact Path.isAbsolute_clean hpath
    · cases hwork : fs.workingDirectory with
      | error e =>
        rw [hwork] at h
        cases h
      | ok path =>
        rw [hwork] at h
        cases h
        exact Path.isAbsolute_join_pair (hstart hwork) _

/-- The path of a link, or one at or below an argument whose own path goes through a link. -/
def Linked (fs : FileSystem) (root : Bytes) (args : List Bytes) (path : Bytes) : Prop :=
  (∃ up name target, path = FileSystem.pathOf (up ++ [name]) ∧ fs.Ground up ∧
    fs.entry? (up ++ [name]) = some (.link target)) ∨
  ∃ arg ∈ args, ∃ base more, argumentPath root arg = FileSystem.pathOf base ∧ fs.Crosses base ∧
    path = FileSystem.pathOf (base ++ more)

/-- A path that is come to leads to a place of that path, unless a link is in the way. -/
theorem eq_pathOf_or_linked {fs : FileSystem} (htree : fs.Tree) {root path : Bytes} {args : List Bytes} {here : Location}
    (h : Approach fs (fun base => ∃ arg ∈ args, argumentPath root arg = FileSystem.pathOf base) path)
    (hlocate : fs.locate .thing path = .ok here) : path = FileSystem.pathOf here ∨ Linked fs root args path := by
  cases h with
  | @direct up name hground hthere =>
    by_cases hlink : ∃ target, fs.entry? (up ++ [name]) = some (.link target)
    · obtain ⟨target, htarget⟩ := hlink
      exact .inr (.inl ⟨up, name, target, rfl, hground, htarget⟩)
    · have huncrossed := htree.not_crosses hthere fun target htarget => hlink ⟨target, htarget⟩
      rw [FileSystem.eq_of_locate (htree.straight hthere) huncrossed rfl hlocate]
      exact .inl rfl
  | @under base more hbase hcrosses =>
    obtain ⟨arg, harg, hpath⟩ := hbase
    exact .inr (.inr ⟨arg, harg, base, more, hpath, hcrosses, rfl⟩)

/-- Every path is discovered once and leads to a file. Different paths lead to different files, unless one of them is
the path of a link or comes from an argument that goes through a link: directories are not searched twice through
links that are met on the way. -/
theorem discover_distinct {fs : FileSystem} {o : Options} {cancelled : Bool} {files : FileSet} (htree : fs.Tree)
    (hdiscover : discover fs cancelled o = .ok files) :
    ∃ root, rootDirectory fs o = .ok root ∧ files.paths.Nodup ∧
      (∀ q ∈ files.paths, ∃ here data, fs.Holds q here data ∧
        (q = FileSystem.pathOf here ∨ Linked fs root o.targets q)) ∧
      ∀ p ∈ files.paths, ∀ q ∈ files.paths, p ≠ q → fs.locate .thing p = fs.locate .thing q →
        Linked fs root o.targets p ∨ Linked fs root o.targets q := by
  obtain ⟨root, classifier, s, hroot, hsearch, rfl⟩ := exists_search_of_discover hdiscover
  let bases : Location → Prop := fun base => ∃ arg ∈ o.targets, argumentPath root arg = FileSystem.pathOf base
  have hrecorded : Recorded fs bases s := by
    refine foldlM_search_preserves (fun arg harg s s' h hs => ?_) hsearch (recorded_empty fs bases)
    refine search_preserves htree (fun s s' path happroach hconsider hs => hs.consider happroach hconsider)
      (isAbsolute_rootDirectory hroot) (fun names hnames => ⟨arg, harg, hnames⟩) h hs
  have hlisted (q : Bytes) : q ∈ s.found.paths ↔ q ∈ s.found.listed := s.found.paths_perm.mem_iff
  have hfiles : ∀ q ∈ s.found.paths, ∃ here data, fs.Holds q here data ∧
      (q = FileSystem.pathOf here ∨ Linked fs root o.targets q) := by
    intro q hq
    obtain ⟨here, data, hholds⟩ := hrecorded.holds q ((hlisted q).mp hq)
    exact ⟨here, data, hholds, eq_pathOf_or_linked htree (hrecorded.approach q ((hlisted q).mp hq)) hholds.locate⟩
  refine ⟨root, hroot, s.found.paths_perm.nodup_iff.mpr hrecorded.nodup, hfiles, fun p hp q hq hne hsame => ?_⟩
  obtain ⟨here, data, hholds, hp' | hp'⟩ := hfiles p hp
  · obtain ⟨there, data', hholds', hq' | hq'⟩ := hfiles q hq
    · rw [hholds.locate, hholds'.locate] at hsame
      rw [Except.ok.inj hsame, ← hq'] at hp'
      exact absurd hp' hne
    · exact .inr hq'
  · exact .inl hp'

/-- A sheet and a link to it. -/
def linked : FileSystem :=
  ⟨[([bytes "a.css"], .file ⟨"x", 0o644, 0⟩), ([bytes "b.css"], .link "a.css")], 0, some [], false⟩

theorem linked_entry {here : Location} {entry : Entry} (h : linked.entry? here = some entry) :
    here = [] ∧ entry = .directory ∨ here = [bytes "a.css"] ∨ here = [bytes "b.css"] := by
  by_cases hroot : here = []
  · subst hroot
    exact .inl ⟨rfl, (Option.some.inj h).symm⟩
  · rw [FileSystem.entry?, if_neg (by simpa using hroot)] at h
    have hthere : (linked.entries.lookup here).isSome := by
      rw [h]
      rfl
    rw [List.lookup_isSome_iff] at hthere
    obtain ⟨found, hfound, heq⟩ := hthere
    rw [beq_iff_eq.mp heq]
    simp only [linked, List.mem_cons, List.not_mem_nil, or_false] at hfound
    obtain rfl | rfl := hfound
    · exact .inr (.inl rfl)
    · exact .inr (.inr rfl)

theorem linked_tree : linked.Tree := by
  have hplace (up : Location) (name : Bytes) (hthere : linked.entry? (up ++ [name]) ≠ none) :
      up = [] ∧ (name = bytes "a.css" ∨ name = bytes "b.css") := by
    obtain ⟨entry, hentry⟩ := Option.ne_none_iff_exists'.mp hthere
    obtain ⟨hnil, -⟩ | hsheet | hlink := linked_entry hentry
    · exact absurd hnil (by simp)
    · obtain ⟨hup, hname⟩ := List.append_inj' (hsheet.trans (List.nil_append _).symm) rfl
      exact ⟨hup, .inl (List.singleton_inj.mp hname)⟩
    · obtain ⟨hup, hname⟩ := List.append_inj' (hlink.trans (List.nil_append _).symm) rfl
      exact ⟨hup, .inr (List.singleton_inj.mp hname)⟩
  constructor
  · intro up name hthere
    rw [(hplace up name hthere).1]
    rfl
  · intro up name hthere
    obtain ⟨-, rfl | rfl⟩ := hplace up name hthere
    · exact ⟨⟨by decide, by decide, by decide⟩, by decide, by decide, by decide⟩
    · exact ⟨⟨by decide, by decide, by decide⟩, by decide, by decide, by decide⟩

/-- The whole tree is searched, with nothing set. -/
def everything : Options := ⟨[], [], [], false, Settings.empty⟩

def linkedTerms : Terms := ⟨linked, "/", [], .ofExtensions Classify.defaultExtensions, false⟩

def linkedSheets : List Bytes := ["a.css", "b.css"]

theorem chars_linked : Classify.chars "a.css" = ['a', '.', 'c', 's', 's'] ∧ Classify.chars "b.css" = ['b', '.', 'c', 's', 's'] := by
  decide +kernel

set_option maxRecDepth 4000 in
theorem isVendored_linked : ∀ name ∈ linkedSheets, Classify.isVendored (Classify.chars name) = false := by
  have hread : Classify.vendored = _ := Pattern.Regex.filterMap_letters Classify.vendoredNotation (by
    unfold Classify.vendoredNotation
    repeat first | exact .nil | apply Pattern.Regex.Letters.cons)
  simp only [linkedSheets, List.forall_mem_cons, chars_linked, Classify.isVendored, hread]
  decide +kernel

theorem generatedPaths_linked : ∀ name ∈ linkedSheets,
    Classify.generatedPaths.any (·.matchesIn (Classify.chars name)) = false := by
  have hread : Classify.generatedPaths = _ := Pattern.Regex.filterMap_letters _ (by
    repeat first | exact .nil | apply Pattern.Regex.Letters.cons)
  simp only [linkedSheets, List.forall_mem_cons, chars_linked, hread]
  decide +kernel

theorem classify_linked {name : Bytes} (hname : name ∈ linkedSheets) :
    linkedTerms.classifier.classify? name (some "x") = some .style := by
  obtain ⟨hcandidate, hextension, hmap, hcontested⟩ : linkedTerms.classifier.candidate? name = some .style ∧
      Text.lower (Path.extension name) = ".css" ∧ Classify.isSourceMap name "x" = false ∧
      Classify.isContested name = false := by
    revert name
    decide +kernel
  have hsigned : Classify.isSigned ".css" "x" = false := by decide
  unfold Classify.Classifier.classify? Classify.isGenerated
  rw [hcandidate]
  simp only [hextension, hmap, hcontested, hsigned, isVendored_linked name hname, generatedPaths_linked name hname]
  decide

theorem locate_linked : linked.locate .thing "/a.css" = .ok [bytes "a.css"] ∧
    linked.locate .thing "/b.css" = .ok [bytes "a.css"] := by
  constructor <;> cbv

/-- Both paths are taken in as sheets. -/
theorem consider_linked {name : Bytes} (hname : name ∈ linkedSheets) {s : Search}
    (hseen : s.seen.contains (bytes "/" ++ name) = false) :
    linkedTerms.consider s (bytes "/" ++ name) = .ok ⟨s.seen ++ [bytes "/" ++ name], s.found.add .style (bytes "/" ++ name)⟩ := by
  have hread : linkedTerms.files.read (bytes "/" ++ name) = .ok (bytes "x") := by
    have hlocate : linked.locate .thing (bytes "/" ++ name) = .ok [bytes "a.css"] := by
      rw [linkedSheets, List.mem_cons, List.mem_singleton] at hname
      obtain rfl | rfl := hname
      · exact locate_linked.1
      · exact locate_linked.2
    show linked.read _ = _
    rw [FileSystem.read, hlocate]
    rfl
  obtain ⟨hexcludes, hcandidate, hrelative⟩ : linkedTerms.excludes (bytes "/" ++ name) = false ∧
      linkedTerms.classifier.candidate? (bytes "/" ++ name) = some .style ∧ linkedTerms.relative (bytes "/" ++ name) = name := by
    clear hseen hread
    revert name
    decide
  have hskip : ¬(s.seen.contains (bytes "/" ++ name) || linkedTerms.excludes (bytes "/" ++ name) ||
      (linkedTerms.classifier.candidate? (bytes "/" ++ name)).isNone) = true := by
    rw [hseen, hexcludes, hcandidate]
    exact Bool.false_ne_true
  rw [Terms.consider, if_neg hskip, hread]
  dsimp only
  rw [hrelative, classify_linked hname]

theorem walk_linked : linkedTerms.walk 4 "/" ⟨[], .empty⟩ =
    .ok ⟨[bytes "/a.css", bytes "/b.css"], [], [bytes "/a.css", bytes "/b.css"], []⟩ := by
  have hlocate : linkedTerms.files.locate .name "/" = .ok [] := by cbv
  have hbranches : linkedTerms.files.branches [] = [.file "a.css", .link "b.css"] := by
    have hnames : linked.names [] = [bytes "a.css", bytes "b.css"] := List.mergeSort_of_pairwise (by decide)
    show linked.branchesTo 2 [] = _
    rw [FileSystem.branchesTo, hnames]
    rfl
  have hresolve : linkedTerms.files.resolve? "/b.css" = some (bytes "/a.css") := by cbv
  have hholds : linked.holdsDirectory "/a.css" = false := by
    rw [FileSystem.holdsDirectory, FileSystem.status, FileSystem.statusAt, locate_linked.1]
    rfl
  have hsheet : linkedTerms.meetFile ⟨[], .empty⟩ "/a.css" = .ok ⟨[bytes "/a.css"], [], [bytes "/a.css"], []⟩ := by
    have hhidden : Terms.isHidden (Path.base "/a.css") = false := by decide
    have hconsider := consider_linked (s := ⟨[], .empty⟩) (List.mem_cons_self ..) rfl
    rw [Terms.meetFile, hhidden]
    exact congrArg (Except.mapError Halt.fault) hconsider
  have hlink (enter) : linkedTerms.meetLink enter ⟨[bytes "/a.css"], [], [bytes "/a.css"], []⟩ "/b.css" =
      .ok ⟨[bytes "/a.css", bytes "/b.css"], [], [bytes "/a.css", bytes "/b.css"], []⟩ := by
    have hhidden : Terms.isHidden (Path.base "/b.css") = false := by decide
    have hconsider := consider_linked (s := ⟨[bytes "/a.css"], [], [bytes "/a.css"], []⟩)
      (List.mem_cons_of_mem _ (List.mem_cons_self ..)) (by decide)
    rw [Terms.meetLink, hresolve]
    show (if linked.holdsDirectory "/a.css" then _ else _) = _
    rw [hholds, Terms.meetFile, hhidden]
    exact congrArg (Except.mapError Halt.fault) hconsider
  have hjoin : Path.join [bytes "/", bytes "a.css"] = "/a.css" ∧ Path.join [bytes "/", bytes "b.css"] = "/b.css" := by
    decide
  rw [Terms.walk, hlocate]
  show Except.mapError _ (linkedTerms.walkBranches _ _ (linkedTerms.files.branches []) _) = _
  rw [hbranches, Terms.walkBranches, Terms.walkBranch, hjoin.1, hsheet]
  dsimp only
  rw [Terms.walkBranches, Terms.walkBranch, hjoin.2, hlink]
  rfl

/-- The sheet is listed by its own path and by that of the link. -/
theorem discover_linked : discover linked false everything = .ok ⟨[], [bytes "/a.css", bytes "/b.css"], []⟩ := by
  have hsearch : linkedTerms.search ⟨[], .empty⟩ "." =
      .ok ⟨[bytes "/a.css", bytes "/b.css"], [], [bytes "/a.css", bytes "/b.css"], []⟩ := by
    have hstatus : linkedTerms.files.status "/" = .ok (FileSystem.statusOf .directory) := by cbv
    have hpath : Path.join [linkedTerms.root, bytes "."] = "/" := by decide
    have hrelative : ¬Path.isAbsolute "." = true := by decide
    rw [Terms.search, if_neg hrelative, hpath, hstatus]
    exact walk_linked
  have hroot : rootDirectory linked everything = .ok "/" := rfl
  have hclassifier : everything.settings.classifier = .ok linkedTerms.classifier := rfl
  unfold discover
  rw [hroot, hclassifier]
  show (do let s ← List.foldlM linkedTerms.search _ [bytes "."]; pure s.found) = _
  rw [List.foldlM_cons, hsearch]
  rfl

theorem paths_linked : (⟨[], [bytes "/a.css", bytes "/b.css"], []⟩ : FileSet).paths = [bytes "/a.css", bytes "/b.css"] := by
  have hsorted : Bytes.sort [bytes "/a.css", bytes "/b.css"] = [bytes "/a.css", bytes "/b.css"] :=
    List.mergeSort_of_pairwise (by decide)
  show Bytes.sort [] ++ (Bytes.sort [bytes "/a.css", bytes "/b.css"] ++ Bytes.sort []) = _
  rw [hsorted, Bytes.sort, List.mergeSort_nil]
  rfl

/-- Of the two paths of the sheet one is that of a link. -/
theorem discover_distinct_linked : ∃ files, discover linked false everything = .ok files ∧
    files.paths = [bytes "/a.css", bytes "/b.css"] ∧ files.paths.Nodup ∧
    (Linked linked "/" everything.targets "/a.css" ∨ Linked linked "/" everything.targets "/b.css") := by
  obtain ⟨root, hroot, hnodup, -, hlinked⟩ := discover_distinct linked_tree discover_linked
  obtain rfl : bytes "/" = root := Except.ok.inj hroot
  refine ⟨_, discover_linked, paths_linked, hnodup, hlinked _ ?_ _ ?_ (by decide) ?_⟩
  · rw [paths_linked]
    exact List.mem_cons_self ..
  · rw [paths_linked]
    exact List.mem_cons_of_mem _ (List.mem_cons_self ..)
  · rw [locate_linked.1, locate_linked.2]

/-- One file can be listed by two paths. -/
theorem discover_twice : ∃ files, discover linked false everything = .ok files ∧
    ∃ p ∈ files.paths, ∃ q ∈ files.paths, p ≠ q ∧ linked.locate .thing p = linked.locate .thing q := by
  refine ⟨_, discover_linked, bytes "/a.css", ?_, bytes "/b.css", ?_, by decide, ?_⟩
  · rw [paths_linked]
    exact List.mem_cons_self ..
  · rw [paths_linked]
    exact List.mem_cons_of_mem _ (List.mem_cons_self ..)
  · rw [locate_linked.1, locate_linked.2]

end Run

end Codemod
