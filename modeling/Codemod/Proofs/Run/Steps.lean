import Codemod.Run.Discovery
import Codemod.Proofs.Text.Order

namespace Codemod.Run

open Files Workspace

/-- What a walk does next. -/
inductive Step where
  /-- Take in a file if it is one to migrate. -/
  | take (path : Bytes)
  /-- Go into the directory that a link leads to. -/
  | enter (target : Bytes)
  /-- Give up. -/
  | refuse (e : Fault)

/-- The path that an argument stands for. -/
def argumentPath (root arg : Bytes) : Bytes := if Path.isAbsolute arg then Path.clean arg else Path.join [root, arg]

namespace Terms

def fileSteps (path : Bytes) : List Step := if isHidden (Path.base path) then [] else [.take path]

def linkSteps (t : Terms) (path : Bytes) : List Step :=
  match t.files.resolve? path with
  | none => []
  | some target =>
    if t.files.holdsDirectory target then if t.followLinks then [.enter target] else []
    else fileSteps path

mutual

def branchSteps (t : Terms) (above : Bytes) : Branch → List Step
  | .file name => fileSteps (Path.join [above, name])
  | .link name => t.linkSteps (Path.join [above, name])
  | .directory name below =>
    if t.passes name (Path.join [above, name]) then [] else t.branchesSteps (Path.join [above, name]) below

def branchesSteps (t : Terms) (above : Bytes) : List Branch → List Step
  | [] => []
  | branch :: rest => t.branchSteps above branch ++ t.branchesSteps above rest

end

/-- All that the walk of a path does, whatever has been found before. -/
def steps (t : Terms) (root : Bytes) : List Step :=
  match t.files.locate .name root with
  | .error e => [.refuse (FileSystem.refusal "lstat" root e)]
  | .ok here =>
    match t.files.entry? here with
    | some (.link _) => t.linkSteps root
    | some (.file _) => fileSteps root
    | _ => t.branchesSteps root (t.files.branches here)

/-- Take a step; `enter` goes into a directory. -/
def perform (t : Terms) (enter : Bytes → Search → Except Halt Search) (s : Search) : Step → Except Halt Search
  | .take path => (t.consider s path).mapError .fault
  | .enter target => enter target s
  | .refuse e => .error (.fault e)

variable {t : Terms} {enter : Bytes → Search → Except Halt Search}

theorem meetFile_eq (s : Search) (path : Bytes) : t.meetFile s path = (fileSteps path).foldlM (t.perform enter) s := by
  unfold meetFile fileSteps
  split
  · rfl
  · rw [List.foldlM_cons, perform]
    cases (t.consider s path).mapError Halt.fault <;> rfl

theorem meetLink_eq (s : Search) (path : Bytes) :
    t.meetLink enter s path = (t.linkSteps path).foldlM (t.perform enter) s := by
  unfold meetLink linkSteps
  cases t.files.resolve? path with
  | none => rfl
  | some target =>
    dsimp only
    split
    · split
      · rw [List.foldlM_cons, perform]
        cases enter target s <;> rfl
      · rfl
    · exact meetFile_eq s path

mutual

theorem walkBranch_eq (above : Bytes) : (branch : Branch) → (s : Search) →
    t.walkBranch enter above branch s = (t.branchSteps above branch).foldlM (t.perform enter) s
  | .file name, s => by
    rw [walkBranch, branchSteps]
    exact meetFile_eq s _
  | .link name, s => by
    rw [walkBranch, branchSteps]
    exact meetLink_eq s _
  | .directory name below, s => by
    rw [walkBranch, branchSteps]
    split
    · rfl
    · exact walkBranches_eq _ below s

theorem walkBranches_eq (above : Bytes) : (branches : List Branch) → (s : Search) →
    t.walkBranches enter above branches s = (t.branchesSteps above branches).foldlM (t.perform enter) s
  | [], s => rfl
  | branch :: rest, s => by
    rw [walkBranches, branchesSteps, List.foldlM_append, walkBranch_eq above branch s]
    cases (t.branchSteps above branch).foldlM (t.perform enter) s with
    | error e => rfl
    | ok found => exact walkBranches_eq above rest found

end

/-- A walk takes its steps one after the other. -/
theorem walk_succ (levels : Nat) (root : Bytes) (s : Search) :
    t.walk (levels + 1) root s = ((t.steps root).foldlM (t.perform (t.walk levels)) s).mapError (below root) := by
  rw [walk, steps]
  cases t.files.locate .name root with
  | error e => rfl
  | ok here =>
    dsimp only
    cases t.files.entry? here with
    | none => exact congrArg _ (walkBranches_eq ..)
    | some entry =>
      cases entry with
      | directory => exact congrArg _ (walkBranches_eq ..)
      | file data => exact congrArg _ (meetFile_eq ..)
      | link target => exact congrArg _ (meetLink_eq ..)

section Search

variable {arg : Bytes}

theorem search_of_error {e : Fault} (h : t.files.status (argumentPath t.root arg) = .error e) (s : Search) :
    t.search s arg = .error (.fault (.within ("stat " ++ arg) e)) := by
  unfold argumentPath at h
  rw [search, h]

theorem search_of_status {status : FileSystem.Status} (h : t.files.status (argumentPath t.root arg) = .ok status)
    (s : Search) : t.search s arg =
      if status.isDirectory then t.walk t.levelLimit (argumentPath t.root arg) s
      else (t.consider s (argumentPath t.root arg)).mapError .fault := by
  unfold argumentPath at h ⊢
  rw [search, h]

end Search

/-- What a path is to a search that has not seen it: a file of some kind, or nothing to migrate. -/
def judge (t : Terms) (path : Bytes) : Except Fault (Option Kind) :=
  if t.excludes path || (t.classifier.candidate? path).isNone then .ok none
  else match t.files.read path with
    | .error e => if e.isDenied then .ok none else .error (.within ("read " ++ path) e)
    | .ok content => .ok (t.classifier.classify? (t.relative path) (some content))

theorem consider_of_seen {s : Search} {path : Bytes} (h : path ∈ s.seen) : t.consider s path = .ok s := by
  rw [consider, List.contains_iff_mem.mpr h, Bool.true_or, Bool.true_or, if_pos rfl]

theorem consider_of_unseen {s : Search} {path : Bytes} (h : path ∉ s.seen) : t.consider s path =
    (t.judge path).map fun judged => judged.elim s fun kind => ⟨s.seen ++ [path], s.found.add kind path⟩ := by
  have hseen : s.seen.contains path = false := by simpa using h
  rw [consider, hseen, Bool.false_or, judge]
  split
  · rfl
  · cases t.files.read path with
    | error e =>
      dsimp only
      split <;> rfl
    | ok content =>
      dsimp only
      cases t.classifier.classify? (t.relative path) (some content) <;> rfl

end Terms

/-- Two outcomes that are the same but for what was found before. -/
inductive Alike (R : Search → Search → Prop) : Except Halt Search → Except Halt Search → Prop
  | ok {a b : Search} : R a b → Alike R (.ok a) (.ok b)
  | error (e : Halt) : Alike R (.error e) (.error e)

namespace Alike

variable {R : Search → Search → Prop}

theorem mapError {x y : Except Halt Search} (h : Alike R x y) (f : Halt → Halt) : Alike R (x.mapError f) (y.mapError f) := by
  cases h with
  | ok hab => exact .ok hab
  | error e => exact .error (f e)

theorem exists_ok {x : Except Halt Search} {b : Search} (h : Alike R x (.ok b)) : ∃ a, x = .ok a ∧ R a b := by
  cases h with
  | ok hab => exact ⟨_, rfl, hab⟩

theorem error_iff {x y : Except Halt Search} (h : Alike R x y) (e : Halt) : x = .error e ↔ y = .error e := by
  cases h with
  | ok hab => exact ⟨nofun, nofun⟩
  | error e => exact Iff.rfl

theorem foldlM {α : Type} {f g : Search → α → Except Halt Search} {xs : List α}
    (hstep : ∀ x ∈ xs, ∀ a b, R a b → Alike R (f a x) (g b x)) {a b : Search} (hab : R a b) :
    Alike R (xs.foldlM f a) (xs.foldlM g b) := by
  induction xs generalizing a b with
  | nil => exact .ok hab
  | cons x xs ih =>
    obtain ⟨hfirst, hrest⟩ := List.forall_mem_cons.mp hstep
    rw [List.foldlM_cons, List.foldlM_cons]
    have halike := hfirst a b hab
    cases hf : f a x with
    | error e =>
      rw [(halike.error_iff e).mp hf]
      exact .error e
    | ok a' =>
      rw [hf] at halike
      cases hg : g b x with
      | error e =>
        rw [hg] at halike
        cases halike
      | ok b' =>
        rw [hg] at halike
        cases halike with
        | ok hab' => exact ih hrest hab'

end Alike

section Lockstep

variable {t : Terms} {R : Search → Search → Prop}
  (hconsider : ∀ a b path, R a b → Alike R ((t.consider a path).mapError .fault) ((t.consider b path).mapError .fault))

include hconsider

theorem perform_alike {enter : Bytes → Search → Except Halt Search}
    (henter : ∀ target a b, R a b → Alike R (enter target a) (enter target b)) (step : Step) {a b : Search} (hab : R a b) :
    Alike R (t.perform enter a step) (t.perform enter b step) := by
  cases step with
  | take path => exact hconsider a b path hab
  | enter target => exact henter target a b hab
  | refuse e => exact .error (.fault e)

/-- What holds between two searches when each considers the same path holds after the same walk. -/
theorem walk_alike (levels : Nat) (root : Bytes) {a b : Search} (hab : R a b) :
    Alike R (t.walk levels root a) (t.walk levels root b) := by
  induction levels generalizing root a b with
  | zero => exact .error .endless
  | succ levels ih =>
    rw [Terms.walk_succ, Terms.walk_succ]
    refine Alike.mapError (Alike.foldlM (fun step _ a b hab => ?_) hab) _
    exact perform_alike hconsider (fun target a b hab => ih target hab) step hab

theorem search_alike (arg : Bytes) {a b : Search} (hab : R a b) : Alike R (t.search a arg) (t.search b arg) := by
  cases hstatus : t.files.status (argumentPath t.root arg) with
  | error e =>
    rw [Terms.search_of_error hstatus, Terms.search_of_error hstatus]
    exact .error _
  | ok status =>
    rw [Terms.search_of_status hstatus, Terms.search_of_status hstatus]
    split
    · exact walk_alike hconsider _ _ hab
    · exact hconsider a b _ hab

end Lockstep

section Add

variable (files : FileSet) (kind : Kind) (path : Bytes)

theorem files_add_self (h : kind ∈ Kind.all) : ((files.add kind path).files kind).Perm (path :: files.files kind) := by
  have hsorted (l : List Bytes) : (Bytes.sort (l ++ [path])).Perm (path :: Bytes.sort l) :=
    (Bytes.sort_perm _).trans ((List.perm_append_singleton path l).trans ((Bytes.sort_perm l).symm.cons path))
  cases kind with
  | template => exact hsorted files.templates
  | style => exact hsorted files.styles
  | source => exact hsorted files.sources
  | other code => simp [Kind.all] at h

theorem files_add_other {kind' : Kind} (h : ¬(kind' = kind ∧ kind ∈ Kind.all)) :
    (files.add kind path).files kind' = files.files kind' := by
  cases kind <;> cases kind' <;> simp_all [FileSet.add, FileSet.files, Kind.all]

theorem mem_files_add {kind' : Kind} {p : Bytes} : p ∈ (files.add kind path).files kind' ↔
    p ∈ files.files kind' ∨ p = path ∧ kind' = kind ∧ kind ∈ Kind.all := by
  by_cases h : kind' = kind ∧ kind ∈ Kind.all
  · rw [h.1, (files_add_self files kind path h.2).mem_iff, List.mem_cons, or_comm]
    simp [h.2]
  · rw [files_add_other files kind path h]
    exact (or_iff_left fun hp => h hp.2).symm

theorem nodup_files_add (hnodup : ∀ kind, (files.files kind).Nodup) (hnew : ∀ kind, path ∉ files.files kind) (kind' : Kind) :
    ((files.add kind path).files kind').Nodup := by
  by_cases h : kind' = kind ∧ kind ∈ Kind.all
  · rw [h.1, (files_add_self files kind path h.2).nodup_iff, List.nodup_cons]
    exact ⟨hnew kind, hnodup kind⟩
  · rw [files_add_other files kind path h]
    exact hnodup kind'

end Add

/-- A file that a search takes in. -/
def Terms.Wants (t : Terms) (path : Bytes) : Prop := ∃ kind, t.judge path = .ok (some kind)

/-- All that was seen was taken in, each file in the list of its kind. -/
structure Sound (t : Terms) (s : Search) : Prop where
  wanted : ∀ p ∈ s.seen, t.Wants p
  listed : ∀ kind p, p ∈ s.found.files kind ↔ p ∈ s.seen ∧ t.judge p = .ok (some kind) ∧ kind ∈ Kind.all
  nodup : ∀ kind, (s.found.files kind).Nodup

namespace Sound

variable {t : Terms} {s : Search}

theorem empty (t : Terms) : Sound t ⟨[], .empty⟩ := by
  have hnil (kind : Kind) : FileSet.empty.files kind = [] := by
    cases kind <;> simp [FileSet.files, FileSet.empty, Bytes.sort]
  refine ⟨nofun, fun kind p => ?_, fun kind => ?_⟩
  · rw [hnil]
    exact ⟨nofun, fun h => absurd h.1 List.not_mem_nil⟩
  · rw [hnil]
    exact List.nodup_nil

/-- Whether a path can be considered does not depend on what was found before. -/
theorem consider_of_error (h : Sound t s) {path : Bytes} {e : Fault} (hjudge : t.judge path = .error e) :
    t.consider s path = .error e := by
  rw [Terms.consider_of_unseen, hjudge]
  · rfl
  · intro hseen
    obtain ⟨kind, hkind⟩ := h.wanted path hseen
    rw [hjudge] at hkind
    cases hkind

theorem exists_consider (h : Sound t s) {path : Bytes} {judged : Option Kind} (hjudge : t.judge path = .ok judged) :
    ∃ s', t.consider s path = .ok s' ∧ Sound t s' ∧ ∀ p, p ∈ s'.seen ↔ p ∈ s.seen ∨ p = path ∧ t.Wants path := by
  by_cases hseen : path ∈ s.seen
  · refine ⟨s, Terms.consider_of_seen hseen, h, fun p => (or_iff_left_of_imp ?_).symm⟩
    rintro ⟨rfl, -⟩
    exact hseen
  · rw [Terms.consider_of_unseen hseen, hjudge]
    cases judged with
    | none =>
      refine ⟨s, rfl, h, fun p => (or_iff_left_of_imp ?_).symm⟩
      rintro ⟨-, kind, hkind⟩
      rw [hjudge] at hkind
      cases hkind
    | some kind =>
      have hmem (p : Bytes) : p ∈ s.seen ++ [path] ↔ p ∈ s.seen ∨ p = path := by
        rw [List.mem_append, List.mem_singleton]
      refine ⟨_, rfl, ⟨fun p hp => ?_, fun kind' p => ?_, ?_⟩, fun p => ?_⟩
      · obtain hp | rfl := (hmem p).mp hp
        · exact h.wanted p hp
        · exact ⟨kind, hjudge⟩
      · show p ∈ (s.found.add kind path).files kind' ↔ p ∈ s.seen ++ [path] ∧ _
        rw [mem_files_add, h.listed, hmem]
        constructor
        · rintro (⟨hp, hkind⟩ | ⟨rfl, rfl, hkind⟩)
          · exact ⟨.inl hp, hkind⟩
          · exact ⟨.inr rfl, hjudge, hkind⟩
        · rintro ⟨hp | rfl, hkind, hall⟩
          · exact .inl ⟨hp, hkind, hall⟩
          · obtain rfl : kind = kind' := Option.some.inj (Except.ok.inj (hjudge.symm.trans hkind))
            exact .inr ⟨rfl, rfl, hall⟩
      · exact nodup_files_add s.found kind path h.nodup fun kind' hlisted => hseen ((h.listed kind' path).mp hlisted).1
      · show p ∈ s.seen ++ [path] ↔ _
        rw [hmem]
        exact or_congr_right (iff_self_and.mpr fun _ => ⟨kind, hjudge⟩)

end Sound

/-- What a search over a tree goes by, whatever its arguments. -/
structure Begins (fs : FileSystem) (o : Options) (cancelled : Bool) (t : Terms) : Prop where
  proceeds : cancelled = false
  files : t.files = fs
  root : rootDirectory fs o = .ok t.root
  excluded : t.excluded = o.excludedPatterns
  classifier : o.settings.classifier = .ok t.classifier
  followLinks : t.followLinks = o.followLinks

section Discover

variable {fs : FileSystem} {o : Options} {cancelled : Bool} {files : FileSet} {t : Terms}

theorem Begins.unique {t' : Terms} (h : Begins fs o cancelled t) (h' : Begins fs o cancelled t') : t = t' := by
  obtain ⟨_, rfl, hroot, hexcluded, hclassifier, hfollow⟩ := h
  obtain ⟨_, hfiles, hroot', hexcluded', hclassifier', hfollow'⟩ := h'
  cases t
  cases t'
  simp_all

theorem Begins.discover_eq (h : Begins fs o cancelled t) :
    discover fs cancelled o = o.targets.foldlM t.search ⟨[], .empty⟩ >>= fun s => pure s.found := by
  obtain ⟨_, root, excluded, classifier, followLinks⟩ := t
  obtain ⟨hproceeds, rfl, hroot, rfl, hclassifier, rfl⟩ := h
  rw [hproceeds]
  unfold discover
  rw [hroot, hclassifier]
  rfl

theorem exists_begins (h : discover fs cancelled o = .ok files) : ∃ t, Begins fs o cancelled t := by
  unfold discover at h
  cases hroot : rootDirectory fs o with
  | error e =>
    rw [hroot] at h
    cases h
  | ok root =>
    cases hclassifier : o.settings.classifier with
    | error e =>
      rw [hroot, hclassifier] at h
      cases h
    | ok classifier =>
      rw [hroot, hclassifier] at h
      cases cancelled with
      | true => cases h
      | false => exact ⟨⟨fs, root, o.excludedPatterns, classifier, o.followLinks⟩, rfl, rfl, hroot, rfl, hclassifier, rfl⟩

theorem discover_eq_ok : discover fs cancelled o = .ok files ↔
    ∃ t, Begins fs o cancelled t ∧ ∃ s, o.targets.foldlM t.search ⟨[], .empty⟩ = .ok s ∧ files = s.found := by
  constructor
  · intro h
    obtain ⟨t, hbegins⟩ := exists_begins h
    refine ⟨t, hbegins, ?_⟩
    rw [hbegins.discover_eq] at h
    cases hsearch : o.targets.foldlM t.search ⟨[], .empty⟩ with
    | error e =>
      rw [hsearch] at h
      cases h
    | ok s =>
      rw [hsearch] at h
      exact ⟨s, rfl, (Except.ok.inj h).symm⟩
  · rintro ⟨t, hbegins, s, hsearch, rfl⟩
    rw [hbegins.discover_eq, hsearch]
    rfl

end Discover

end Codemod.Run
