import Codemod.Proofs.Run.Union
import Mathlib.Data.List.Chain
import Mathlib.Logic.Relation

namespace Codemod.Run

open Files

section Fold

variable {α β ε : Type} {f : β → α → Except ε β}

/-- A fold fails at one of its steps, after those before it went well. -/
theorem foldlM_eq_error {xs : List α} {b : β} {e : ε} : xs.foldlM f b = .error e ↔
    ∃ before x after b', xs = before ++ x :: after ∧ before.foldlM f b = .ok b' ∧ f b' x = .error e := by
  induction xs generalizing b with
  | nil => exact ⟨nofun, fun ⟨before, x, after, _, hnil, _⟩ => by simp at hnil⟩
  | cons first rest ih =>
    rw [List.foldlM_cons]
    cases hfirst : f b first with
    | error e' =>
      constructor
      · intro h
        cases h
        exact ⟨[], first, rest, b, rfl, rfl, hfirst⟩
      · rintro ⟨before, x, after, b', hsplit, hbefore, hx⟩
        cases before with
        | nil =>
          cases hbefore
          rw [← (List.cons.inj hsplit).1, hfirst] at hx
          exact hx
        | cons _ before =>
          rw [← (List.cons.inj hsplit).1, List.foldlM_cons, hfirst] at hbefore
          cases hbefore
    | ok b₁ =>
      refine Iff.trans ih ⟨?_, ?_⟩
      · rintro ⟨before, x, after, b', rfl, hbefore, hx⟩
        refine ⟨first :: before, x, after, b', rfl, ?_, hx⟩
        rw [List.foldlM_cons, hfirst]
        exact hbefore
      · rintro ⟨before, x, after, b', hsplit, hbefore, hx⟩
        cases before with
        | nil =>
          cases hbefore
          rw [← (List.cons.inj hsplit).1, hfirst] at hx
          cases hx
        | cons _ before =>
          rw [← (List.cons.inj hsplit).1, List.foldlM_cons, hfirst] at hbefore
          exact ⟨before, x, after, b', (List.cons.inj hsplit).2, hbefore, hx⟩

end Fold

/-- A chain that is longer than there are places for it comes to one of them twice. -/
theorem exists_transGen_self {α : Type} {r : α → α → Prop} {x : α} {l places : List α} (hchain : (x :: l).IsChain r)
    (hplaces : l ⊆ places) (hlong : places.length < l.length) :
    ∃ d, Relation.ReflTransGen r x d ∧ Relation.TransGen r d d := by
  have hpairs : (x :: l).Pairwise (Relation.TransGen r) :=
    (hchain.imp fun _ _ h => Relation.TransGen.single h).pairwise
  obtain ⟨hreached, hpairs⟩ := List.pairwise_cons.mp hpairs
  by_contra hnone
  have hnodup : l.Nodup := by
    refine hpairs.imp_of_mem fun {a b} ha _ hab heq => hnone ⟨a, (hreached a ha).to_reflTransGen, ?_⟩
    rwa [← heq] at hab
  exact absurd (hnodup.subperm hplaces).length_le (Nat.not_le.mpr hlong)

variable {t : Terms}

namespace Terms

/-- A walk that starts from nothing does not end within so many levels. -/
def Exhausts (t : Terms) (levels : Nat) (root : Bytes) : Prop := t.walk levels root ⟨[], .empty⟩ = .error .endless

/-- The walk of a directory goes well until a link leads it into another directory. -/
def Gets (t : Terms) (root target : Bytes) : Prop := ∃ before after levels s,
  t.steps root = before ++ .enter target :: after ∧ before.foldlM (t.perform (t.walk levels)) ⟨[], .empty⟩ = .ok s

/-- Links lead from a directory into one that they lead back to. -/
def Loops (t : Terms) (root : Bytes) : Prop := ∃ d, Relation.ReflTransGen t.Gets root d ∧ Relation.TransGen t.Gets d d

variable {enter enter' : Bytes → Search → Except Halt Search} {s : Search}

theorem perform_eq_endless {step : Step} :
    t.perform enter s step = .error .endless ↔ ∃ target, step = .enter target ∧ enter target s = .error .endless := by
  cases step with
  | take path =>
    rw [perform]
    cases t.consider s path <;> simp [Except.mapError]
  | enter target => simp [perform]
  | refuse e => simp [perform]

/-- More levels make no difference to steps that end. -/
theorem foldlM_perform_congr (henter : ∀ target s, enter target s ≠ .error .endless → enter' target s = enter target s)
    {steps : List Step} (h : steps.foldlM (t.perform enter) s ≠ .error .endless) :
    steps.foldlM (t.perform enter') s = steps.foldlM (t.perform enter) s := by
  induction steps generalizing s with
  | nil => rfl
  | cons step rest ih =>
    rw [List.foldlM_cons] at h ⊢
    rw [List.foldlM_cons]
    have hstep : t.perform enter' s step = t.perform enter s step := by
      cases step with
      | enter target =>
        refine henter target s fun hendless => h ?_
        rw [perform, hendless]
        rfl
      | _ => rfl
    rw [hstep]
    cases hperform : t.perform enter s step with
    | error e => rfl
    | ok s' =>
      rw [hperform] at h
      exact ih h

theorem mapError_below {root : Bytes} {x : Except Halt Search} : x.mapError (below root) = .error .endless ↔ x = .error .endless := by
  cases x with
  | ok s => exact ⟨nofun, nofun⟩
  | error e =>
    cases e with
    | fault e => exact ⟨nofun, nofun⟩
    | endless => exact ⟨fun _ => rfl, fun _ => rfl⟩

/-- More levels make no difference to a walk that ends. -/
theorem walk_of_le {levels more : Nat} (hle : levels ≤ more) {root : Bytes} (h : t.walk levels root s ≠ .error .endless) :
    t.walk more root s = t.walk levels root s := by
  induction levels generalizing more root s with
  | zero => exact absurd rfl h
  | succ levels ih =>
    obtain ⟨more, rfl⟩ := Nat.exists_eq_add_of_le' hle
    rw [← Nat.add_assoc, walk_succ, walk_succ]
    rw [walk_succ] at h
    refine congrArg _ (foldlM_perform_congr (fun target s htarget => ?_) fun hendless => h (mapError_below.mpr hendless))
    exact ih (Nat.le_add_left ..) htarget

end Terms

section Exhausts

variable {levels : Nat} {root target : Bytes}

theorem walk_ahead {s : Search} (hs : Sound t s) (levels : Nat) (root : Bytes) :
    Alike (Ahead t s.seen) (t.walk levels root s) (t.walk levels root ⟨[], .empty⟩) :=
  walk_alike (fun _ _ path h => h.consider path) levels root hs.ahead

/-- Whether a walk ends does not depend on what was found before. -/
theorem Sound.walk_eq_endless {s : Search} (hs : Sound t s) :
    t.walk levels root s = .error .endless ↔ t.Exhausts levels root := (walk_ahead hs levels root).error_iff .endless

theorem Sound.of_steps {steps : List Step} {s : Search}
    (h : steps.foldlM (t.perform (t.walk levels)) ⟨[], .empty⟩ = .ok s) : Sound t s := by
  have hconsider (a b : Search) (path : Bytes) (hab : Ahead t [] a b) := hab.consider path
  have halike : Alike (Ahead t []) (steps.foldlM (t.perform (t.walk levels)) ⟨[], .empty⟩)
      (steps.foldlM (t.perform (t.walk levels)) ⟨[], .empty⟩) := by
    refine Alike.foldlM (fun step _ a b hab => ?_) (Sound.empty t).ahead
    exact perform_alike hconsider (fun target a b hab => walk_alike hconsider levels target hab) step hab
  rw [h] at halike
  cases halike with
  | ok hahead => exact hahead.later

theorem exists_gets_of_exhausts (h : t.Exhausts (levels + 1) root) : ∃ target, t.Gets root target ∧ t.Exhausts levels target := by
  rw [Terms.Exhausts, Terms.walk_succ, Terms.mapError_below, foldlM_eq_error] at h
  obtain ⟨before, step, after, s, hsplit, hbefore, hstep⟩ := h
  obtain ⟨target, rfl, hendless⟩ := Terms.perform_eq_endless.mp hstep
  exact ⟨target, ⟨before, after, levels, s, hsplit, hbefore⟩, (Sound.of_steps hbefore).walk_eq_endless.mp hendless⟩

theorem exhausts_of_gets (hgets : t.Gets root target) (h : t.Exhausts levels target) : t.Exhausts (levels + 1) root := by
  obtain ⟨before, after, more, s, hsplit, hbefore⟩ := hgets
  rw [Terms.Exhausts, Terms.walk_succ, Terms.mapError_below, foldlM_eq_error]
  by_cases hendless : before.foldlM (t.perform (t.walk levels)) ⟨[], .empty⟩ = .error .endless
  · obtain ⟨earlier, step, later, s', rfl, hearlier, hstep⟩ := foldlM_eq_error.mp hendless
    exact ⟨earlier, step, later ++ .enter target :: after, s', by simp [hsplit], hearlier, hstep⟩
  · -- with more levels than either walk has, the steps before are both walks
    have hmore (levels' : Nat) (hle : levels' ≤ max levels more)
        (hends : before.foldlM (t.perform (t.walk levels')) ⟨[], .empty⟩ ≠ .error .endless) :
        before.foldlM (t.perform (t.walk (max levels more))) ⟨[], .empty⟩ =
          before.foldlM (t.perform (t.walk levels')) ⟨[], .empty⟩ :=
      Terms.foldlM_perform_congr (fun _ _ => Terms.walk_of_le hle) hends
    have hsame := hmore levels (le_max_left ..) hendless
    rw [hmore more (le_max_right ..) (by rw [hbefore]; exact nofun), hbefore] at hsame
    exact ⟨before, .enter target, after, s, hsplit, hsame.symm, (Sound.of_steps hbefore).walk_eq_endless.mpr h⟩

theorem exists_gets_of_loops (h : t.Loops root) : ∃ target, t.Gets root target ∧ t.Loops target := by
  obtain ⟨d, hreached, hagain⟩ := h
  obtain rfl | ⟨target, hgets, hreached⟩ := hreached.cases_head
  · obtain ⟨target, hgets, hback⟩ := Relation.TransGen.head'_iff.mp hagain
    exact ⟨target, hgets, root, hback, hagain⟩
  · exact ⟨target, hgets, d, hreached, hagain⟩

theorem exhausts_of_loops (h : t.Loops root) : t.Exhausts levels root := by
  induction levels generalizing root with
  | zero => rfl
  | succ levels ih =>
    obtain ⟨target, hgets, hloops⟩ := exists_gets_of_loops h
    exact exhausts_of_gets hgets (ih hloops)

/-- A walk that runs out of levels has gone through as many links. -/
theorem exists_chain_of_exhausts (h : t.Exhausts levels root) :
    ∃ targets : List Bytes, targets.length = levels ∧ (root :: targets).IsChain t.Gets := by
  induction levels generalizing root with
  | zero => exact ⟨[], rfl, .singleton root⟩
  | succ levels ih =>
    obtain ⟨target, hgets, hexhausts⟩ := exists_gets_of_exhausts h
    obtain ⟨targets, hlength, hchain⟩ := ih hexhausts
    exact ⟨target :: targets, congrArg (· + 1) hlength, hchain.cons_cons hgets⟩

end Exhausts

section Places

variable {path target : Bytes}

theorem not_mem_fileSteps : Step.enter target ∉ Terms.fileSteps path := by
  unfold Terms.fileSteps
  split
  · exact List.not_mem_nil
  · simp

/-- A link that is gone through is one to a directory. -/
theorem mem_linkSteps (h : .enter target ∈ t.linkSteps path) :
    t.files.resolve? path = some target ∧ t.files.holdsDirectory target = true ∧ t.followLinks = true := by
  unfold Terms.linkSteps at h
  split at h
  · exact absurd h List.not_mem_nil
  · next found hresolve =>
    split at h
    · next hdirectory =>
      split at h
      · next hfollow =>
        obtain rfl : target = found := Step.enter.inj (List.mem_singleton.mp h)
        exact ⟨hresolve, hdirectory, hfollow⟩
      · exact absurd h List.not_mem_nil
    · exact absurd h not_mem_fileSteps

mutual

theorem mem_branchSteps {path : Bytes} (h : Path.isAbsolute path = true) : (branch : Branch) → .enter target ∈ t.branchSteps path branch →
    ∃ link, Path.isAbsolute link = true ∧ .enter target ∈ t.linkSteps link
  | .file name, hmem => by
    rw [Terms.branchSteps] at hmem
    exact absurd hmem not_mem_fileSteps
  | .link name, hmem => by
    rw [Terms.branchSteps] at hmem
    exact ⟨_, Path.isAbsolute_join_pair h name, hmem⟩
  | .directory name below, hmem => by
    rw [Terms.branchSteps] at hmem
    split at hmem
    · exact absurd hmem List.not_mem_nil
    · exact mem_branchesSteps (Path.isAbsolute_join_pair h name) below hmem

theorem mem_branchesSteps {path : Bytes} (h : Path.isAbsolute path = true) : (branches : List Branch) →
    .enter target ∈ t.branchesSteps path branches → ∃ link, Path.isAbsolute link = true ∧ .enter target ∈ t.linkSteps link
  | [], hmem => absurd hmem List.not_mem_nil
  | branch :: rest, hmem => by
    rw [Terms.branchesSteps] at hmem
    obtain hmem | hmem := List.mem_append.mp hmem
    · exact mem_branchSteps h branch hmem
    · exact mem_branchesSteps h rest hmem

end

theorem mem_steps (h : Path.isAbsolute path = true) (hmem : .enter target ∈ t.steps path) :
    ∃ link, Path.isAbsolute link = true ∧ .enter target ∈ t.linkSteps link := by
  unfold Terms.steps at hmem
  split at hmem
  · simp at hmem
  · split at hmem
    · exact ⟨path, h, hmem⟩
    · exact absurd hmem not_mem_fileSteps
    · exact mem_branchesSteps h _ hmem

theorem Terms.Gets.followLinks (habsolute : Path.isAbsolute path = true) (h : t.Gets path target) : t.followLinks = true := by
  obtain ⟨before, after, -, -, hsplit, -⟩ := h
  have hmem : .enter target ∈ t.steps path := by simp [hsplit]
  obtain ⟨link, -, hlink⟩ := mem_steps habsolute hmem
  exact (mem_linkSteps hlink).2.2

/-- The paths of all places in the tree. -/
def Terms.places (t : Terms) : List Bytes := FileSystem.pathOf [] :: t.files.entries.map fun entry => FileSystem.pathOf entry.1

theorem Terms.Gets.mem_places (htree : t.files.Tree) (habsolute : Path.isAbsolute path = true) (h : t.Gets path target) :
    target ∈ t.places ∧ Path.isAbsolute target = true := by
  obtain ⟨before, after, -, -, hsplit, -⟩ := h
  have hmem : .enter target ∈ t.steps path := by simp [hsplit]
  obtain ⟨link, habsolute, hlink⟩ := mem_steps habsolute hmem
  obtain ⟨here, rfl, hthere, -⟩ := htree.resolved habsolute (mem_linkSteps hlink).1
  refine ⟨?_, Path.isAbsolute_pathOf here⟩
  unfold FileSystem.entry? at hthere
  split at hthere
  · next hroot =>
    rw [List.isEmpty_iff.mp hroot]
    exact List.mem_cons_self ..
  · rw [← Option.isSome_iff_ne_none, List.lookup_isSome_iff] at hthere
    obtain ⟨found, hfound, heq⟩ := hthere
    rw [beq_iff_eq.mp heq]
    exact List.mem_cons_of_mem _ (List.mem_map_of_mem hfound)

theorem mem_places_of_chain (htree : t.files.Tree) {root : Bytes} (habsolute : Path.isAbsolute root = true) {targets : List Bytes}
    (hchain : (root :: targets).IsChain t.Gets) : targets ⊆ t.places := by
  induction targets generalizing root with
  | nil => exact List.nil_subset _
  | cons target rest ih =>
    obtain ⟨hgets, hrest⟩ := List.isChain_cons_cons.mp hchain
    obtain ⟨hplace, htarget⟩ := hgets.mem_places htree habsolute
    exact List.cons_subset.mpr ⟨hplace, ih htarget hrest⟩

/-- A walk that does not end within the limit comes back to a directory. -/
theorem loops_of_exhausts (htree : t.files.Tree) {root : Bytes} (habsolute : Path.isAbsolute root = true)
    (h : t.Exhausts t.levelLimit root) : t.Loops root := by
  obtain ⟨targets, hlength, hchain⟩ := exists_chain_of_exhausts h
  refine exists_transGen_self hchain (mem_places_of_chain htree habsolute hchain) ?_
  rw [hlength]
  simp [Terms.places, Terms.levelLimit]

theorem isAbsolute_argumentPath {root : Bytes} (h : Path.isAbsolute root = true) (arg : Bytes) :
    Path.isAbsolute (argumentPath root arg) = true := by
  unfold argumentPath
  split
  · next hpath => exact Path.isAbsolute_clean hpath
  · exact Path.isAbsolute_join_pair h arg

theorem not_loops (hfollow : t.followLinks = false) {root : Bytes} (habsolute : Path.isAbsolute root = true) : ¬t.Loops root := by
  intro hloops
  obtain ⟨target, hgets, -⟩ := exists_gets_of_loops hloops
  rw [hgets.followLinks habsolute] at hfollow
  cases hfollow

end Places

section Discover

variable {root : Bytes}

/-- The walk of a directory ends if no directory is come back to. The limit is then high enough. -/
theorem exhausts_iff_loops (htree : t.files.Tree) (habsolute : Path.isAbsolute root = true) :
    t.Exhausts t.levelLimit root ↔ t.Loops root := ⟨loops_of_exhausts htree habsolute, exhausts_of_loops⟩

theorem search_eq_endless (htree : t.files.Tree) (hroot : Path.isAbsolute t.root = true) {s : Search} (hs : Sound t s) {arg : Bytes} :
    t.search s arg = .error .endless ↔
      t.files.holdsDirectory (argumentPath t.root arg) = true ∧ t.Loops (argumentPath t.root arg) := by
  rw [← exhausts_iff_loops htree (isAbsolute_argumentPath hroot arg), FileSystem.holdsDirectory]
  cases hstatus : t.files.status (argumentPath t.root arg) with
  | error e =>
    rw [Terms.search_of_error hstatus]
    simp
  | ok status =>
    rw [Terms.search_of_status hstatus]
    dsimp only
    split
    · next hdirectory =>
      rw [hs.walk_eq_endless]
      exact (and_iff_right hdirectory).symm
    · next hfile =>
      refine iff_of_false (fun h => ?_) fun h => hfile h.1
      cases hconsider : t.consider s (argumentPath t.root arg) with
      | error e =>
        rw [hconsider] at h
        cases h
      | ok s' =>
        rw [hconsider] at h
        cases h

/-- Discovery ends unless links lead the walk of an argument into a directory that they lead back to. Then no number of
levels is enough for that walk. Where links are not followed there is no such directory. -/
theorem discover_ends_iff {fs : FileSystem} {o : Options} {cancelled : Bool} (htree : fs.Tree) (hbegins : Begins fs o cancelled t) :
    (discover fs cancelled o = .error .endless ↔ ∃ before arg after s, o.targets = before ++ arg :: after ∧
      before.foldlM t.search ⟨[], .empty⟩ = .ok s ∧ fs.holdsDirectory (argumentPath t.root arg) = true ∧
      t.Loops (argumentPath t.root arg)) ∧
    (∀ before arg after s, o.targets = before ++ arg :: after → before.foldlM t.search ⟨[], .empty⟩ = .ok s →
      ((∃ levels, t.walk levels (argumentPath t.root arg) s ≠ .error .endless) ↔ ¬t.Loops (argumentPath t.root arg))) ∧
    (o.followLinks = false → discover fs cancelled o ≠ .error .endless) := by
  have hroot := isAbsolute_rootDirectory hbegins.root
  have hsound {args : List Bytes} {s : Search} (h : args.foldlM t.search ⟨[], .empty⟩ = .ok s) : Sound t s :=
    ((Sound.empty t).foldlM_search h).1
  obtain rfl := hbegins.files
  have hendless : discover t.files cancelled o = .error .endless ↔ ∃ before arg after s, o.targets = before ++ arg :: after ∧
      before.foldlM t.search ⟨[], .empty⟩ = .ok s ∧ t.files.holdsDirectory (argumentPath t.root arg) = true ∧
      t.Loops (argumentPath t.root arg) := by
    have hsearch : discover t.files cancelled o = .error .endless ↔ o.targets.foldlM t.search ⟨[], .empty⟩ = .error .endless := by
      rw [hbegins.discover_eq]
      cases o.targets.foldlM t.search ⟨[], .empty⟩ with
      | error e =>
        constructor <;>
        · intro h
          cases h
          rfl
      | ok s => exact ⟨nofun, nofun⟩
    rw [hsearch, foldlM_eq_error]
    constructor
    · rintro ⟨before, arg, after, s, hsplit, hbefore, harg⟩
      exact ⟨before, arg, after, s, hsplit, hbefore, (search_eq_endless htree hroot (hsound hbefore)).mp harg⟩
    · rintro ⟨before, arg, after, s, hsplit, hbefore, harg⟩
      exact ⟨before, arg, after, s, hsplit, hbefore, (search_eq_endless htree hroot (hsound hbefore)).mpr harg⟩
  refine ⟨hendless, fun before arg after s _ hbefore => ?_, fun hfollow h => ?_⟩
  · have habsolute := isAbsolute_argumentPath hroot arg
    constructor
    · rintro ⟨levels, hends⟩ hloops
      exact hends ((hsound hbefore).walk_eq_endless.mpr (exhausts_of_loops hloops))
    · intro hloops
      refine ⟨t.levelLimit, fun h => hloops ?_⟩
      exact (exhausts_iff_loops htree habsolute).mp ((hsound hbefore).walk_eq_endless.mp h)
  · obtain ⟨_, arg, _, _, _, _, _, hloops⟩ := hendless.mp h
    exact not_loops (hbegins.followLinks.trans hfollow) (isAbsolute_argumentPath hroot arg) hloops

end Discover

/-- A directory that holds a link to itself. -/
def looped : FileSystem := ⟨[([bytes "loop"], .link "/")], 0, some [], false⟩

def loopedTerms : Terms := ⟨looped, "/", [], .ofExtensions Classify.defaultExtensions, true⟩

theorem looped_tree : looped.Tree := by
  have hplace (up : Location) (name : Bytes) (hthere : looped.entry? (up ++ [name]) ≠ none) : up = [] ∧ name = bytes "loop" := by
    have hentry : looped.entry? (up ++ [name]) = looped.entries.lookup (up ++ [name]) := if_neg (by simp)
    rw [hentry, ← Option.isSome_iff_ne_none, List.lookup_isSome_iff] at hthere
    obtain ⟨found, hfound, heq⟩ := hthere
    rw [List.mem_singleton.mp hfound] at heq
    obtain ⟨hup, hname⟩ := List.append_inj' ((beq_iff_eq.mp heq).trans (List.nil_append _).symm) rfl
    exact ⟨hup, List.singleton_inj.mp hname⟩
  constructor
  · intro up name hthere
    rw [(hplace up name hthere).1]
    rfl
  · intro up name hthere
    obtain ⟨-, rfl⟩ := hplace up name hthere
    exact ⟨⟨by decide, by decide, by decide⟩, by decide, by decide, by decide⟩

theorem steps_looped : loopedTerms.steps "/" = [.enter "/"] := by
  have hlocate : loopedTerms.files.locate .name "/" = .ok [] := by cbv
  have hbranches : loopedTerms.files.branches [] = [.link "loop"] := by
    have hnames : looped.names [] = [bytes "loop"] := List.mergeSort_singleton _
    show looped.branchesTo 1 [] = _
    rw [FileSystem.branchesTo, hnames]
    rfl
  have hjoin : Path.join [bytes "/", bytes "loop"] = "/loop" := by decide
  have hresolve : loopedTerms.files.resolve? "/loop" = some (bytes "/") := by cbv
  have hholds : loopedTerms.files.holdsDirectory "/" = true := by cbv
  have hlink : loopedTerms.linkSteps "/loop" = [.enter "/"] := by
    rw [Terms.linkSteps, hresolve]
    dsimp only
    rw [hholds]
    rfl
  rw [Terms.steps, hlocate]
  show loopedTerms.branchesSteps "/" (loopedTerms.files.branches []) = _
  rw [hbranches, Terms.branchesSteps, Terms.branchSteps, hjoin, hlink]
  rfl

theorem loops_looped : loopedTerms.Loops "/" := by
  have hgets : loopedTerms.Gets "/" "/" := ⟨[], [], 0, ⟨[], .empty⟩, steps_looped, rfl⟩
  exact ⟨bytes "/", .refl, .single hgets⟩

/-- No number of levels is enough for a directory that holds a link to itself. -/
theorem discover_looped : looped.Tree ∧ discover looped false { everything with followLinks := true } = .error .endless ∧
    ∀ levels, loopedTerms.walk levels "/" ⟨[], .empty⟩ = .error .endless := by
  have hbegins : Begins looped { everything with followLinks := true } false loopedTerms := ⟨rfl, rfl, rfl, rfl, rfl, rfl⟩
  have hpath : argumentPath loopedTerms.root "." = "/" := by decide
  have hholds : loopedTerms.files.holdsDirectory "/" = true := by cbv
  have hsearch : loopedTerms.search ⟨[], .empty⟩ "." = .error .endless := by
    refine (search_eq_endless looped_tree rfl (Sound.empty loopedTerms)).mpr ?_
    rw [hpath]
    exact ⟨hholds, loops_looped⟩
  refine ⟨looped_tree, ?_, fun levels => exhausts_of_loops loops_looped⟩
  rw [hbegins.discover_eq]
  show [bytes "."].foldlM loopedTerms.search _ >>= _ = _
  rw [List.foldlM_cons, hsearch]
  rfl

/-- The directory that holds a link to itself is searched without end if links are followed, and only then. -/
theorem discover_ends_iff_looped : discover looped false { everything with followLinks := true } = .error .endless ∧
    discover looped false everything ≠ .error .endless := by
  have hpath : argumentPath loopedTerms.root "." = "/" := by decide
  have hholds : looped.holdsDirectory "/" = true := by cbv
  have hbegins : Begins looped { everything with followLinks := true } false loopedTerms := ⟨rfl, rfl, rfl, rfl, rfl, rfl⟩
  have hbegins' : Begins looped everything false { loopedTerms with followLinks := false } := ⟨rfl, rfl, rfl, rfl, rfl, rfl⟩
  have hfollowed := discover_ends_iff looped_tree hbegins
  have hpassed := discover_ends_iff looped_tree hbegins'
  refine ⟨hfollowed.1.mpr ⟨[], ".", [], ⟨[], .empty⟩, rfl, rfl, ?_⟩, hpassed.2.2 rfl⟩
  rw [hpath]
  exact ⟨hholds, loops_looped⟩

end Codemod.Run
