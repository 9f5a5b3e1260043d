import Codemod.Proofs.Files.Filled
import Codemod.Proofs.Files.Spelling
import Codemod.Proofs.Files.Backup

namespace Codemod.Files

/-- Names that lead straight down. -/
structure Path.Straight (names : List Bytes) : Prop where
  spelled : ∀ n ∈ names, Spelled n
  down : bytes ".." ∉ names

namespace Path

theorem Straight.snoc {names : List Bytes} {name : Bytes} (h : Straight names) (hname : Spelled name)
    (hup : name ≠ bytes "..") : Straight (names ++ [name]) := by
  constructor
  · intro n hn
    obtain hn | hn := List.mem_append.mp hn
    · exact h.spelled n hn
    · rwa [List.mem_singleton.mp hn]
  · rw [List.mem_append, not_or, List.mem_singleton]
    exact ⟨h.down, Ne.symm hup⟩

theorem isAbsolute_pathOf (names : Location) : isAbsolute (FileSystem.pathOf names) = true := rfl

/-- An absolute path without detours leads straight down from the root. -/
theorem exists_straight_clean {path : Bytes} (h : isAbsolute path = true) :
    ∃ names, clean path = FileSystem.pathOf names ∧ Straight names := by
  obtain ⟨k, down, hparts, hdown, hk⟩ := cleanParts_tidy path
  rw [hk h, List.replicate_zero, List.nil_append] at hparts
  refine ⟨cleanParts path, ?_, fun n hn => spelled_cleanParts hn, hparts ▸ hdown⟩
  rw [clean, h]
  rfl

theorem exists_straight_join {path : Bytes} (h : isAbsolute path = true) (more : Bytes) :
    ∃ names, join [path, more] = FileSystem.pathOf names ∧ Straight names := by
  have hne : path ≠ [] := by
    rintro rfl
    cases h
  by_cases hmore : more = []
  · have hjoin : join [path, more] = clean path := by simp [hmore, join, hne, Bytes.join]
    rw [hjoin]
    exact exists_straight_clean h
  · rw [join_pair hne hmore]
    refine exists_straight_clean ?_
    rwa [isAbsolute_append hne]

theorem isAbsolute_clean {path : Bytes} (h : isAbsolute path = true) : isAbsolute (clean path) = true := by
  obtain ⟨names, hclean, -⟩ := exists_straight_clean h
  rw [hclean]
  exact isAbsolute_pathOf names

theorem isAbsolute_join_pair {path : Bytes} (h : isAbsolute path = true) (more : Bytes) : isAbsolute (join [path, more]) = true := by
  obtain ⟨names, hjoin, -⟩ := exists_straight_join h more
  rw [hjoin]
  exact isAbsolute_pathOf names

theorem join_straight {names : List Bytes} (h : Straight names) {name : Bytes} (hname : Spelled name)
    (hup : name ≠ bytes "..") : join [FileSystem.pathOf names, name] = FileSystem.pathOf (names ++ [name]) := by
  have hne : FileSystem.pathOf names ≠ [] := by simp [FileSystem.pathOf, ofParts, bytes_slash]
  rw [join_name hne hname hup, isAbsolute_pathOf, cleanParts_pathOf h.spelled h.down]
  rfl

end Path

namespace FileSystem

/-- All that there is stands in directories, under names that paths can spell. -/
structure Tree (fs : FileSystem) : Prop where
  parent : ∀ here name, fs.entry? (here ++ [name]) ≠ none → fs.entry? here = some .directory
  named : ∀ here name, fs.entry? (here ++ [name]) ≠ none → Spelled name ∧ Proper name

/-- Names that lead through a link, or to one. -/
def Crosses (fs : FileSystem) (names : Location) : Prop := ∃ up target, up <+: names ∧ fs.entry? up = some (.link target)

section Uncrossed

variable {fs : FileSystem} {aim : Aim} {links : Nat} {start here : Location} {names : List Bytes}

/-- A walk that meets no link and no detour ends where its names say. -/
theorem eq_of_follow (hnames : Path.Straight names) (hlinks : ¬fs.Crosses (start ++ names)) (haim : aim.takesNothing = false)
    (h : fs.follow aim links start names = .ok here) : here = start ++ names := by
  induction names generalizing start with
  | nil =>
    rw [follow_nil] at h
    rw [List.append_nil]
    exact (Except.ok.inj h).symm
  | cons name rest ih =>
    have hsplit : start ++ name :: rest = (start ++ [name]) ++ rest := by simp
    obtain ⟨hname, hspelled⟩ := List.forall_mem_cons.mp hnames.spelled
    have hdown := hnames.down
    rw [List.mem_cons, not_or] at hdown
    by_cases hlong : 255 < name.length
    · rw [follow_long _ _ _ _ hlong] at h
      cases h
    have hproper : Proper name := ⟨hlong, hname.ne_dot, Ne.symm hdown.1⟩
    rw [hsplit] at hlinks ⊢
    cases hentry : fs.entry? (start ++ [name]) with
    | none =>
      rw [follow_none aim hproper rest hentry, haim] at h
      cases h
    | some entry =>
      cases entry with
      | directory =>
        rw [follow_directory aim hproper rest hentry] at h
        exact ih ⟨hspelled, hdown.2⟩ hlinks h
      | file data =>
        rw [follow_file aim hproper rest hentry] at h
        split at h
        · next hend =>
          rw [List.isEmpty_iff.mp hend, List.append_nil]
          exact (Except.ok.inj h).symm
        · cases h
      | link target => exact absurd ⟨_, target, List.prefix_append .., hentry⟩ hlinks

theorem eq_of_locate (hnames : Path.Straight names) (hlinks : ¬fs.Crosses names) (haim : aim.takesNothing = false)
    (h : fs.locate aim (pathOf names) = .ok here) : here = names := by
  have hstart : fs.start? (pathOf names) = some [] := by
    rw [start?, if_neg (by simp [pathOf, Path.ofParts, Path.bytes_slash]), if_pos (Path.isAbsolute_pathOf names)]
  rw [locate_eq, hstart] at h
  obtain hnil | ⟨up, name, hconcat⟩ := List.eq_nil_or_concat names
  · have hroot : fs.follow aim linkLimit [] [bytes "."] = .ok here := by
      rw [hnil] at h
      exact h
    rw [follow_dot, follow_nil] at hroot
    rw [hnil]
    exact (Except.ok.inj hroot).symm
  · rw [List.concat_eq_append] at hconcat
    have hpath : pathNames (pathOf names) = names := by
      rw [hconcat]
      exact Path.pathNames_ofParts fun n hn => (hnames.spelled n (hconcat ▸ hn)).plain
    dsimp only at h
    rw [hpath] at h
    exact eq_of_follow hnames hlinks haim h

end Uncrossed

namespace Tree

variable {fs : FileSystem} {start here : Location} (h : fs.Tree)

include h

theorem ground (hhere : fs.entry? here = some .directory) : fs.Ground here := by
  induction here using List.reverseRecOn with
  | nil => exact ground_nil
  | append_singleton here name ih => exact (ih (h.parent here name (by rw [hhere]; simp))).snoc hhere

theorem names (hhere : fs.entry? here ≠ none) : ∀ n ∈ here, Spelled n ∧ Proper n := by
  induction here using List.reverseRecOn with
  | nil => exact fun n hn => absurd hn List.not_mem_nil
  | append_singleton here name ih =>
    intro n hn
    obtain hn | hn := List.mem_append.mp hn
    · exact ih (by rw [h.parent here name hhere]; simp) n hn
    · rw [List.mem_singleton.mp hn]
      exact h.named here name hhere

theorem straight (hhere : fs.entry? here ≠ none) : Path.Straight here :=
  ⟨fun n hn => (h.names hhere n hn).1, fun hup => (h.names hhere _ hup).2.ne_up rfl⟩

theorem dropLast (hhere : fs.entry? here ≠ none) : fs.entry? here.dropLast = some .directory := by
  obtain hnil | ⟨up, name, hconcat⟩ := List.eq_nil_or_concat here
  · rw [hnil]
    rfl
  · rw [List.concat_eq_append] at hconcat
    rw [hconcat] at hhere ⊢
    rw [List.dropLast_concat, h.parent up name hhere]

/-- No link lies above what is there. -/
theorem not_crosses (hhere : fs.entry? here ≠ none) (hlink : ∀ target, fs.entry? here ≠ some (.link target)) :
    ¬fs.Crosses here := by
  rintro ⟨up, target, hbegins, hup⟩
  obtain hnil | ⟨above, name, hconcat⟩ := List.eq_nil_or_concat here
  · rw [hnil, List.prefix_nil] at hbegins
    rw [hbegins] at hup
    cases hup
  · rw [List.concat_eq_append] at hconcat
    rw [hconcat] at hbegins hhere hlink
    obtain heq | hbegins := List.prefix_concat_iff.mp hbegins
    · exact hlink target (heq ▸ hup)
    · have hdirectory := h.ground (h.parent above name hhere) up hbegins
      rw [hup] at hdirectory
      cases hdirectory

/-- What a walk ends at is there, and is no link. -/
theorem reached {links : Nat} {names : List Bytes} (hstart : fs.entry? start = some .directory)
    (hfollow : fs.follow .thing links start names = .ok here) :
    fs.entry? here ≠ none ∧ ∀ target, fs.entry? here ≠ some (.link target) := by
  induction links, start, names using walk_induction fs with
  | nil links start =>
    rw [follow_nil] at hfollow
    cases hfollow
    rw [hstart]
    simp
  | long links start name rest hlong =>
    rw [follow_long _ _ _ _ hlong] at hfollow
    cases hfollow
  | dot links start rest ih =>
    rw [follow_dot] at hfollow
    exact ih hstart hfollow
  | up links start rest ih =>
    rw [follow_up] at hfollow
    exact ih (h.dropLast (by rw [hstart]; simp)) hfollow
  | seen links start name rest hname ihdir ihlink =>
    cases hentry : fs.entry? (start ++ [name]) with
    | none =>
      rw [follow_none .thing hname rest hentry] at hfollow
      cases hfollow
    | some entry =>
      cases entry with
      | directory =>
        rw [follow_directory .thing hname rest hentry] at hfollow
        exact ihdir hentry hentry hfollow
      | file data =>
        rw [follow_file .thing hname rest hentry] at hfollow
        split at hfollow
        · cases hfollow
          rw [hentry]
          simp
        · cases hfollow
      | link target =>
        rw [follow_link .thing hname rest hentry, if_neg (by simp [Aim.takesLink])] at hfollow
        cases links with
        | zero => cases hfollow
        | succ links =>
          refine ihlink target links hentry rfl ?_ hfollow
          unfold linkStart
          split
          · rfl
          · exact hstart

/-- A path with its links resolved is that of something that is there and is no link. -/
theorem resolved {path target : Bytes} (habsolute : Path.isAbsolute path = true) (hresolve : fs.resolve? path = some target) :
    ∃ loc, target = pathOf loc ∧ fs.entry? loc ≠ none ∧ ∀ link, fs.entry? loc ≠ some (.link link) := by
  rw [FileSystem.resolve?, locateWith] at hresolve
  by_cases hempty : path.isEmpty = true
  · rw [if_pos hempty] at hresolve
    cases hresolve
  · rw [if_neg hempty, if_pos habsolute] at hresolve
    dsimp only at hresolve
    cases hfollow : fs.follow .thing 255 [] (pathNames path) with
    | error e =>
      rw [hfollow] at hresolve
      cases hresolve
    | ok loc =>
      rw [hfollow] at hresolve
      exact ⟨loc, (Option.some.inj hresolve).symm, h.reached rfl hfollow⟩

/-- A path with its links resolved leads through none. -/
theorem resolve? {path target : Bytes} (habsolute : Path.isAbsolute path = true) (hresolve : fs.resolve? path = some target) :
    ∃ loc, target = pathOf loc ∧ Path.Straight loc ∧ ¬fs.Crosses loc := by
  obtain ⟨loc, rfl, hthere, hlink⟩ := h.resolved habsolute hresolve
  exact ⟨loc, rfl, h.straight hthere, h.not_crosses hthere hlink⟩

end Tree

/-- A tree without links, seen from a directory of it: all stands in directories, under names that paths
can spell. -/
structure Plain (fs : FileSystem) (start : Location) : Prop where
  workplace : fs.workplace = some start
  start : fs.entry? start = some .directory
  parent : ∀ here name, fs.entry? (here ++ [name]) ≠ none → fs.entry? here = some .directory
  named : ∀ here name, fs.entry? (here ++ [name]) ≠ none → Spelled name ∧ Proper name
  unlinked : ∀ here target, fs.entry? here ≠ some (.link target)

section Follow

variable {fs : FileSystem} {aim : Aim} {links : Nat} {start : Location} {names rest : List Bytes}

theorem follow_ups (k : Nat) (hstart : fs.Ground start) :
    fs.follow aim links start (List.replicate k (bytes "..") ++ rest) =
      fs.follow aim links (Path.along start (List.replicate k (bytes ".."))) rest ∧
      fs.Ground (Path.along start (List.replicate k (bytes ".."))) := by
  induction k generalizing start with
  | zero => exact ⟨rfl, hstart⟩
  | succ k ih =>
    have hstep : Path.along start (List.replicate (k + 1) (bytes "..")) =
        Path.along start.dropLast (List.replicate k (bytes "..")) := by
      rw [Path.along, List.replicate_succ, List.foldl_cons, if_pos rfl]
      rfl
    rw [List.replicate_succ, List.cons_append, follow_up, ← List.replicate_succ, hstep]
    exact ih hstart.dropLast

theorem follow_downs (h : fs.Ground (start ++ names)) (hproper : ∀ n ∈ names, Proper n) :
    fs.follow aim links start (names ++ rest) = fs.follow aim links (start ++ names) rest := by
  induction names generalizing start with
  | nil => rw [List.nil_append, List.append_nil]
  | cons name names ih =>
    obtain ⟨hname, hnames⟩ := List.forall_mem_cons.mp hproper
    have hsplit : start ++ name :: names = (start ++ [name]) ++ names := by rw [List.append_assoc]; rfl
    rw [hsplit] at h ⊢
    rw [List.cons_append, follow_directory aim hname _ (h _ (List.prefix_append ..))]
    exact ih h hnames

/-- Nothing stands in the way of tidy names that lead to a directory. -/
theorem follow_tidy {rooted : Bool} (htidy : Path.Tidy rooted names) (hstart : fs.Ground start)
    (hgoal : fs.Ground (Path.along start names)) (hproper : ∀ n ∈ Path.along start names, Proper n) :
    fs.follow aim links start (names ++ rest) = fs.follow aim links (Path.along start names) rest := by
  obtain ⟨k, down, rfl, hdown, -⟩ := htidy
  rw [Path.along_append, Path.along_of_not_mem _ hdown] at hgoal hproper ⊢
  rw [List.append_assoc, (follow_ups k hstart).1]
  exact follow_downs hgoal fun n hn => hproper n (List.mem_append_right _ hn)

/-- Without links, a walk that does not fail leads where its names do. -/
theorem along_of_follow (hlinks : ∀ here target, fs.entry? here ≠ some (.link target)) (htakes : aim.takesNothing = false)
    {here : Location} (h : fs.follow aim links start names = .ok here) (hstart : fs.entry? start ≠ none)
    (hparents : ∀ here, fs.entry? here ≠ none → fs.entry? here.dropLast ≠ none) :
    here = Path.along start (names.filter fun n => n != bytes ".") ∧ fs.entry? here ≠ none := by
  induction links, start, names using walk_induction fs with
  | nil links start =>
    rw [follow_nil] at h
    cases h
    exact ⟨rfl, hstart⟩
  | long links start name rest hlong =>
    rw [follow_long _ _ _ _ hlong] at h
    cases h
  | dot links start rest ih =>
    rw [follow_dot] at h
    rw [List.filter_cons_of_neg (by simp)]
    exact ih h hstart
  | up links start rest ih =>
    rw [follow_up] at h
    rw [List.filter_cons_of_pos (by decide), Path.along, List.foldl_cons, if_pos rfl]
    exact ih h (hparents start hstart)
  | seen links start name rest hname ihdir ihlink =>
    rw [List.filter_cons_of_pos (by simpa using hname.ne_dot), Path.along, List.foldl_cons, if_neg hname.ne_up]
    cases he : fs.entry? (start ++ [name]) with
    | none =>
      rw [follow_none aim hname rest he, htakes, Bool.false_and] at h
      cases h
    | some entry =>
      cases entry with
      | file data =>
        rw [follow_file aim hname rest he] at h
        split at h
        · next hend =>
          cases h
          rw [List.isEmpty_iff.mp hend]
          exact ⟨rfl, by rw [he]; simp⟩
        · cases h
      | directory =>
        rw [follow_directory aim hname rest he] at h
        exact ihdir he h (by rw [he]; simp)
      | link target => exact absurd he (hlinks _ target)

/-- Without links it is the same to ask for a thing and for its name. -/
theorem follow_name (hlinks : ∀ here target, fs.entry? here ≠ some (.link target)) :
    fs.follow .name links start names = fs.follow .thing links start names := by
  induction links, start, names using walk_induction fs with
  | nil links start => rw [follow_nil, follow_nil]
  | long links start name rest hlong => rw [follow_long _ _ _ _ hlong, follow_long _ _ _ _ hlong]
  | dot links start rest ih => rw [follow_dot, follow_dot, ih]
  | up links start rest ih => rw [follow_up, follow_up, ih]
  | seen links start name rest hname ihdir ihlink =>
    cases he : fs.entry? (start ++ [name]) with
    | none => rw [follow_none .name hname rest he, follow_none .thing hname rest he]; rfl
    | some entry =>
      cases entry with
      | file data => rw [follow_file .name hname rest he, follow_file .thing hname rest he]
      | directory => rw [follow_directory .name hname rest he, follow_directory .thing hname rest he, ihdir he]
      | link target => exact absurd he (hlinks _ target)

/-- A walk that ends somewhere goes the same way where the directories and files it passes still are. -/
theorem follow_still {fs' : FileSystem} (hlinks : ∀ here target, fs.entry? here ≠ some (.link target))
    (htakes : aim.takesNothing = false)
    (hdirectories : ∀ here, fs.entry? here = some .directory → fs'.entry? here = some .directory)
    (hfiles : ∀ here data, fs.entry? here = some (.file data) → ∃ data', fs'.entry? here = some (.file data'))
    {here : Location} (h : fs.follow aim links start names = .ok here) : fs'.follow aim links start names = .ok here := by
  induction links, start, names using walk_induction fs with
  | nil links start => rwa [follow_nil] at h ⊢
  | long links start name rest hlong =>
    rw [follow_long _ _ _ _ hlong] at h
    cases h
  | dot links start rest ih =>
    rw [follow_dot] at h ⊢
    exact ih h
  | up links start rest ih =>
    rw [follow_up] at h ⊢
    exact ih h
  | seen links start name rest hname ihdir ihlink =>
    cases he : fs.entry? (start ++ [name]) with
    | none =>
      rw [follow_none aim hname rest he, htakes, Bool.false_and] at h
      cases h
    | some entry =>
      cases entry with
      | file data =>
        obtain ⟨data', hdata'⟩ := hfiles _ data he
        rw [follow_file aim hname rest he] at h
        rw [follow_file aim hname rest hdata']
        exact h
      | directory =>
        rw [follow_directory aim hname rest he] at h
        rw [follow_directory aim hname rest (hdirectories _ he)]
        exact ihdir he h
      | link target => exact absurd he (hlinks _ target)

end Follow

namespace Plain

variable {fs fs' : FileSystem} {start up : Location} {name path : Bytes} (h : fs.Plain start)

include h

theorem tree : fs.Tree := ⟨h.parent, h.named⟩

theorem ground {here : Location} (hhere : fs.entry? here = some .directory) : fs.Ground here := h.tree.ground hhere

theorem grounded : fs.Grounded := by
  intro here hhere
  obtain rfl := Option.some.inj (h.workplace.symm.trans hhere)
  exact h.ground h.start

theorem names {here : Location} (hhere : fs.entry? here ≠ none) : ∀ n ∈ here, Spelled n ∧ Proper n := h.tree.names hhere

theorem not_up_mem {here : Location} (hhere : fs.entry? here ≠ none) : bytes ".." ∉ here := (h.tree.straight hhere).down

theorem dropLast {here : Location} (hhere : fs.entry? here ≠ none) : fs.entry? here.dropLast ≠ none := by
  rw [h.tree.dropLast hhere]
  simp

/-- Where a path leads can be read off its names. -/
theorem along_of_locate {aim : Aim} (htakes : aim.takesNothing = false) {here : Location}
    (hlocate : fs.locate aim path = .ok here) :
    path ≠ [] ∧ here = Path.along (if Path.isAbsolute path then [] else start) (Path.parts path) ∧ fs.entry? here ≠ none := by
  have hne : path ≠ [] := by
    rintro rfl
    cases hlocate
  have hstart : fs.start? path = some (if Path.isAbsolute path then [] else start) := by
    rw [start?, if_neg (by simpa using hne), h.workplace]
    split <;> rfl
  rw [locate_eq, hstart] at hlocate
  have hparts : (pathNames path).filter (fun n => n != bytes ".") = Path.parts path := by
    have htail : (if path.endsWith "/" then [bytes "."] else []).filter (fun n => n != bytes ".") = [] := by
      split <;> rfl
    rw [pathNames, List.filter_append, htail, List.append_nil, List.filter_filter, Path.parts]
    exact List.filter_congr fun n _ => Bool.and_comm ..
  have hroot : fs.entry? (if Path.isAbsolute path then [] else start) ≠ none := by
    split
    · intro hnone
      cases hnone
    · rw [h.start]
      simp
  obtain ⟨hhere, hentry⟩ := along_of_follow h.unlinked htakes hlocate hroot fun _ => h.dropLast
  rw [hparts] at hhere
  exact ⟨hne, hhere, hentry⟩

theorem locate_name (path : Bytes) : fs.locate .name path = fs.locate .thing path := by
  rw [locate_eq, locate_eq]
  cases fs.start? path with
  | none => rfl
  | some start => exact follow_name h.unlinked

section Points

variable (hp : Path.Points start path up name) (hup : fs.entry? up = some .directory)

include hp hup

theorem locateWith_points (aim : Aim) (links : Nat) : fs.locateWith aim links path = fs.follow aim links up [name] := by
  obtain ⟨rooted, names, rfl, htidy, hspelled, rfl⟩ := hp
  have hplain (n : Bytes) (hn : n ∈ names ++ [name]) := (hspelled n hn).plain
  have hne : (Path.ofParts rooted (names ++ [name])).isEmpty = false := by
    rw [Path.ofParts_concat]
    simpa using fun _ => (hspelled name (List.mem_append_right _ (List.mem_singleton_self _))).nonempty
  have hground : fs.Ground (if rooted then [] else start) := by
    cases rooted
    · exact h.ground h.start
    · exact ground_nil
  rw [locateWith, hne, if_neg Bool.false_ne_true, Path.isAbsolute_ofParts hplain,
    Path.pathNames_ofParts hplain,
    h.workplace]
  have hproper : ∀ n ∈ Path.along (if rooted then [] else start) names, Proper n := by
    intro n hn
    apply (h.names _ n hn).2
    rw [hup]
    simp
  have hwalk : fs.follow aim links (if rooted then [] else start) (names ++ [name]) = _ :=
    follow_tidy htidy hground (h.ground hup) hproper
  cases rooted
  · exact hwalk
  · exact hwalk

theorem locate_points (aim : Aim) : fs.locate aim path = fs.follow aim linkLimit up [name] :=
  h.locateWith_points hp hup aim linkLimit

/-- The way to a neighbour of a path. -/
theorem locate_beside {more : Bytes} (hmore : Spelled (name ++ more)) (aim : Aim) :
    fs.locate aim (Path.beside path more) = fs.follow aim linkLimit up [name ++ more] := by
  obtain ⟨rooted, names, hpath, htidy, hspelled, hdown⟩ := hp
  have hname := hspelled name (List.mem_append_right _ (List.mem_singleton_self _))
  have hnames : ∀ n ∈ names, Spelled n := fun n hn => hspelled n (List.mem_append_left _ hn)
  have hspelled' : ∀ n ∈ names ++ [name ++ more], Spelled n := by
    intro n hn
    obtain hn | hn := List.mem_append.mp hn
    · exact hnames n hn
    · rwa [List.mem_singleton.mp hn]
  have hbeside : Path.beside path more = (if Path.ofParts rooted names = "/" then [] else Path.ofParts rooted names) ++
      slash :: (name ++ more) := by
    rw [hpath, Path.beside, Path.dir_ofParts htidy hnames hname, Path.base_ofParts hname]
    simp [Bytes.concat, Path.bytes_slash]
  by_cases hlocal : rooted = false ∧ names = []
  · -- the path is a name alone, and its neighbour is written with a dot in front
    obtain ⟨rfl, rfl⟩ := hlocal
    have hdot : Path.beside path more = Path.ofParts false ([bytes "."] ++ [name ++ more]) := by
      rw [hbeside, if_neg (by decide)]
      simp [Path.ofParts, Bytes.join, Path.bytes_slash, List.intercalate_cons_cons]
    have hplain : ∀ n ∈ [bytes "."] ++ [name ++ more], n ≠ [] ∧ slash ∉ n := by
      intro n hn
      obtain hn | hn := List.mem_append.mp hn
      · rw [List.mem_singleton.mp hn]
        decide
      · rw [List.mem_singleton.mp hn]
        exact hmore.plain
    have hstart : fs.start? (Path.beside path more) = some start := by
      rw [start?, hdot, Path.isAbsolute_ofParts hplain, if_neg (by simp [Path.ofParts, Bytes.join, bytes]),
        if_neg Bool.false_ne_true, h.workplace]
    rw [locate_eq, hstart, hdot, Path.pathNames_ofParts hplain]
    dsimp only
    rw [List.singleton_append, follow_dot, ← hdown]
    rfl
  · have hsame : Path.beside path more = Path.ofParts rooted (names ++ [name ++ more]) := by
      rw [hbeside, Path.ofParts_concat, Path.front]
      cases names with
      | nil =>
        cases rooted with
        | true => rfl
        | false => exact absurd ⟨rfl, rfl⟩ hlocal
      | cons first rest =>
        have hne : Path.ofParts rooted (first :: rest) ≠ "/" := by
          intro heq
          have hparts : Path.parts (Path.ofParts rooted (first :: rest)) = first :: rest := Path.parts_ofParts hnames
          rw [heq] at hparts
          cases hparts
        rw [if_neg hne, if_neg (by simp), List.append_assoc]
        rfl
    apply h.locate_points _ hup aim
    exact ⟨rooted, names, hsame, htidy, hspelled', hdown⟩

theorem leads_points {data : FileData} (hfile : fs.entry? (up ++ [name]) = some (.file data)) :
    fs.Leads path (up ++ [name]) data := by
  refine ⟨?_, hfile⟩
  rw [h.locate_points hp hup, follow_file .thing (h.named up name (by rw [hfile]; simp)).2 [] hfile]
  rfl

theorem lacks_points (hname : Proper name) (hnone : fs.entry? (up ++ [name]) = none) : fs.Lacks path := by
  rw [Lacks, h.locate_points hp hup, follow_none .thing hname [] hnone]
  rfl

theorem slot_points (hname : Proper name) : fs.locate .slot path = .ok (up ++ [name]) := by
  rw [h.locate_points hp hup]
  exact follow_slot hname

/-- A neighbour can be written if its name is not too long. -/
theorem reachable_points : fs.Reachable path ↔ ¬255 < (name ++ bytes ".tmp.0123456789").length := by
  have hspelled : Spelled (name ++ bytes ".tmp.0123456789") := hp.spelled.append (by decide) (by decide)
  rw [Reachable, h.locate_beside hp hup hspelled]
  constructor
  · intro hfound hlong
    obtain ⟨here, hhere⟩ := hfound
    rw [follow_long _ _ _ _ hlong] at hhere
    cases hhere
  · intro hshort
    have hproper : Proper (name ++ bytes ".tmp.0123456789") := hp.spelled.proper_append hshort (by decide)
    cases he : fs.entry? (up ++ [name ++ bytes ".tmp.0123456789"]) with
    | none => exact ⟨_, follow_none .place hproper [] he⟩
    | some entry =>
      cases entry with
      | file data => exact ⟨_, follow_file .place hproper [] he⟩
      | directory => exact ⟨_, (follow_directory .place hproper [] he).trans (follow_nil ..)⟩
      | link target => exact absurd he (h.unlinked _ target)

/-- Replacing the file of a path fills its place and nothing else. -/
theorem filled_points (hname : Proper name) {content : Bytes} {permissions : Nat}
    (hreplace : fs.replace false path content permissions = .ok fs') :
    fs.entry? (up ++ [name]) ≠ some .directory ∧ ¬255 < (name ++ bytes ".tmp.0123456789").length ∧
      Filled fs (up ++ [name]) (fs.written content permissions) fs' := by
  obtain ⟨hreach, w, hslot, hkind, hfilled⟩ := filled_of_replace hreplace
  rw [h.slot_points hp hup hname] at hslot
  cases hslot
  exact ⟨hkind, (h.reachable_points hp hup).mp hreach, hfilled⟩

theorem exists_replace_points (hname : Proper name) (hkind : fs.entry? (up ++ [name]) ≠ some .directory)
    (hshort : ¬255 < (name ++ bytes ".tmp.0123456789").length) (content : Bytes) (permissions : Nat) :
    ∃ fs', fs.replace false path content permissions = .ok fs' :=
  ⟨_, (replace_eq_ok false).mpr
    ⟨rfl, (h.reachable_points hp hup).mpr hshort, _, h.slot_points hp hup hname, hkind, rfl⟩⟩

end Points

/-- A file may be put beside others, or in the place of one. -/
theorem filled {data : FileData} (hup : fs.entry? up = some .directory) (hname : Spelled name ∧ Proper name)
    (hkind : fs.entry? (up ++ [name]) ≠ some .directory) (hf : Filled fs (up ++ [name]) data fs') : fs'.Plain start := by
  have hdirectory {here : Location} (hhere : fs.entry? here = some .directory) : fs'.entry? here = some .directory := by
    rw [hf.elsewhere, hhere]
    intro heq
    exact hkind (heq ▸ hhere)
  refine ⟨hf.workplace.trans h.workplace, hdirectory h.start, fun here n hn => ?_, fun here n hn => ?_, fun here target hlink => ?_⟩
  · by_cases heq : here ++ [n] = up ++ [name]
    · rw [(List.append_inj' heq rfl).1]
      exact hdirectory hup
    · rw [hf.elsewhere _ heq] at hn
      exact hdirectory (h.parent here n hn)
  · by_cases heq : here ++ [n] = up ++ [name]
    · rw [List.singleton_inj.mp (List.append_inj' heq rfl).2]
      exact hname
    · rw [hf.elsewhere _ heq] at hn
      exact h.named here n hn
  · by_cases heq : here = up ++ [name]
    · rw [heq, hf.here] at hlink
      cases hlink
    · rw [hf.elsewhere _ heq] at hlink
      exact h.unlinked here target hlink

/-- Nothing lies below a file. -/
theorem not_below_file {w here : Location} (hw : fs.entry? w ≠ some .directory) (hbelow : w <+: here) (hne : here ≠ w) :
    fs.entry? here = none := by
  by_contra hentry
  obtain hnil | ⟨up, name, hconcat⟩ := List.eq_nil_or_concat here
  · rw [hnil, List.prefix_nil] at hbelow
    exact hne (hnil.trans hbelow.symm)
  · rw [List.concat_eq_append] at hconcat
    rw [hconcat] at hbelow hentry hne
    obtain heq | hbelow := List.prefix_concat_iff.mp hbelow
    · exact hne heq.symm
    · exact hw (h.ground (h.parent up name hentry) w hbelow)

/-- With a file nothing else is taken away. -/
theorem entry?_erase_file {w : Location} {data : FileData} (hw : fs.entry? w = some (.file data)) (here : Location) :
    entry? (fs.erase w) here = if here = w then none else fs.entry? here := by
  have hkind : fs.entry? w ≠ some .directory := by
    rw [hw]
    simp
  by_cases hroot : here = []
  · rw [hroot, if_neg]
    · rfl
    · intro hnil
      exact hkind (hnil ▸ rfl)
  · rw [entry?_erase fs hroot]
    by_cases heq : here = w
    · rw [if_pos heq, heq, if_pos List.prefix_rfl]
    · rw [if_neg heq]
      split
      · next hbelow => exact (h.not_below_file hkind hbelow heq).symm
      · rfl

theorem erased {w : Location} {data : FileData} (hw : fs.entry? w = some (.file data)) : (fs.erase w).Plain start := by
  have hkept {here : Location} {entry : Entry} (hhere : entry? (fs.erase w) here = some entry) : fs.entry? here = some entry := by
    rw [h.entry?_erase_file hw] at hhere
    split at hhere
    · cases hhere
    · exact hhere
  have hdirectory {here : Location} (hhere : fs.entry? here = some .directory) :
      entry? (fs.erase w) here = some .directory := by
    rw [h.entry?_erase_file hw, if_neg, hhere]
    intro heq
    rw [heq, hw] at hhere
    cases hhere
  have hthere {here : Location} (hhere : entry? (fs.erase w) here ≠ none) : fs.entry? here ≠ none := by
    obtain ⟨entry, hentry⟩ := Option.ne_none_iff_exists'.mp hhere
    rw [hkept hentry]
    simp
  exact ⟨h.workplace, hdirectory h.start, fun here n hn => hdirectory (h.parent here n (hthere hn)),
    fun here n hn => h.named here n (hthere hn), fun here target hlink => h.unlinked here target (hkept hlink)⟩

end Plain

end FileSystem

end Codemod.Files
