import Codemod.Proofs.Run.Distinct

namespace Codemod.Run

open Files Workspace

variable {t : Terms}

/-- A search that starts from nothing comes to an end with one argument. -/
def Terms.Searches (t : Terms) (arg : Bytes) : Prop := ∃ g, t.search ⟨[], .empty⟩ arg = .ok g

/-- A search that starts from nothing takes in a path with one argument. -/
def Terms.Finds (t : Terms) (arg p : Bytes) : Prop := ∃ g, t.search ⟨[], .empty⟩ arg = .ok g ∧ p ∈ g.seen

/-- What one search has seen, another one has seen that began with some paths more. -/
structure Ahead (t : Terms) (before : List Bytes) (a b : Search) : Prop where
  later : Sound t a
  fresh : Sound t b
  seen : ∀ p, p ∈ a.seen ↔ p ∈ before ∨ p ∈ b.seen

theorem Ahead.consider {before : List Bytes} {a b : Search} (h : Ahead t before a b) (path : Bytes) :
    Alike (Ahead t before) ((t.consider a path).mapError .fault) ((t.consider b path).mapError .fault) := by
  cases hjudge : t.judge path with
  | error e =>
    rw [h.later.consider_of_error hjudge, h.fresh.consider_of_error hjudge]
    exact .error _
  | ok judged =>
    obtain ⟨a', ha, hlater, hseen⟩ := h.later.exists_consider hjudge
    obtain ⟨b', hb, hfresh, hseen'⟩ := h.fresh.exists_consider hjudge
    rw [ha, hb]
    refine .ok ⟨hlater, hfresh, fun p => ?_⟩
    rw [hseen, hseen', h.seen, or_assoc]

theorem Sound.ahead {s : Search} (h : Sound t s) : Ahead t s.seen s ⟨[], .empty⟩ :=
  ⟨h, Sound.empty t, fun _ => (or_iff_left List.not_mem_nil).symm⟩

/-- An argument adds what it finds alone, whatever was found before. -/
theorem search_ahead {s : Search} (hs : Sound t s) (arg : Bytes) :
    Alike (Ahead t s.seen) (t.search s arg) (t.search ⟨[], .empty⟩ arg) :=
  search_alike (fun _ _ path h => h.consider path) arg hs.ahead

theorem Sound.search {s s' : Search} (hs : Sound t s) {arg : Bytes} (h : t.search s arg = .ok s') :
    Sound t s' ∧ t.Searches arg ∧ ∀ p, p ∈ s'.seen ↔ p ∈ s.seen ∨ t.Finds arg p := by
  have halike := search_ahead hs arg
  rw [h] at halike
  generalize hfresh : t.search ⟨[], .empty⟩ arg = outcome at halike
  cases halike with
  | @ok _ g hahead =>
    refine ⟨hahead.later, ⟨g, hfresh⟩, fun p => ?_⟩
    rw [hahead.seen]
    refine or_congr_right ⟨fun hp => ⟨g, hfresh, hp⟩, ?_⟩
    rintro ⟨g', hg', hp⟩
    rw [hfresh] at hg'
    rwa [Except.ok.inj hg']

theorem Sound.exists_search {s : Search} (hs : Sound t s) {arg : Bytes} (h : t.Searches arg) :
    ∃ s', t.search s arg = .ok s' := by
  obtain ⟨g, hg⟩ := h
  have halike := search_ahead hs arg
  rw [hg] at halike
  obtain ⟨s', hs', -⟩ := halike.exists_ok
  exact ⟨s', hs'⟩

/-- Arguments together find what each of them finds. -/
theorem Sound.foldlM_search {s s' : Search} (hs : Sound t s) {args : List Bytes} (h : args.foldlM t.search s = .ok s') :
    Sound t s' ∧ (∀ arg ∈ args, t.Searches arg) ∧ ∀ p, p ∈ s'.seen ↔ p ∈ s.seen ∨ ∃ arg ∈ args, t.Finds arg p := by
  induction args generalizing s with
  | nil =>
    cases h
    exact ⟨hs, nofun, fun p => (or_iff_left fun ⟨_, harg, _⟩ => List.not_mem_nil harg).symm⟩
  | cons arg rest ih =>
    rw [List.foldlM_cons] at h
    cases hfirst : t.search s arg with
    | error e =>
      rw [hfirst] at h
      cases h
    | ok s₁ =>
      rw [hfirst] at h
      obtain ⟨hs₁, hsearches, hseen₁⟩ := hs.search hfirst
      obtain ⟨hs', hrest, hseen⟩ := ih hs₁ h
      refine ⟨hs', List.forall_mem_cons.mpr ⟨hsearches, hrest⟩, fun p => ?_⟩
      rw [hseen, hseen₁, or_assoc, List.exists_mem_cons_iff]

theorem Sound.exists_foldlM_search {s : Search} (hs : Sound t s) {args : List Bytes} (h : ∀ arg ∈ args, t.Searches arg) :
    ∃ s', args.foldlM t.search s = .ok s' := by
  induction args generalizing s with
  | nil => exact ⟨s, rfl⟩
  | cons arg rest ih =>
    obtain ⟨hfirst, hrest⟩ := List.forall_mem_cons.mp h
    obtain ⟨s₁, hs₁⟩ := hs.exists_search hfirst
    rw [List.foldlM_cons, hs₁]
    exact ih (hs.search hs₁).1 hrest

/-- What a search with some arguments has to say: each argument can be searched, and the files of a kind are those
that one of the arguments finds. -/
structure Gathers (t : Terms) (args : List Bytes) (files : FileSet) : Prop where
  searches : ∀ arg ∈ args, t.Searches arg
  nodup : ∀ kind, (files.files kind).Nodup
  mem : ∀ kind p, p ∈ files.files kind ↔ (∃ arg ∈ args, t.Finds arg p) ∧ t.judge p = .ok (some kind) ∧ kind ∈ Kind.all

theorem gathers_of_search {args : List Bytes} {s : Search} (h : args.foldlM t.search ⟨[], .empty⟩ = .ok s) :
    Gathers t args s.found := by
  obtain ⟨hs, hsearches, hseen⟩ := (Sound.empty t).foldlM_search h
  refine ⟨hsearches, hs.nodup, fun kind p => ?_⟩
  rw [hs.listed, hseen, or_iff_right List.not_mem_nil]

theorem exists_gathers {args : List Bytes} (h : ∀ arg ∈ args, t.Searches arg) :
    ∃ s, args.foldlM t.search ⟨[], .empty⟩ = .ok s ∧ Gathers t args s.found := by
  obtain ⟨s, hs⟩ := (Sound.empty t).exists_foldlM_search h
  exact ⟨s, hs, gathers_of_search hs⟩

/-- The files of a kind stand in ascending order. -/
theorem sort_files (files : FileSet) (kind : Kind) : Bytes.sort (files.files kind) = files.files kind := by
  have hsort (l : List Bytes) : Bytes.sort (Bytes.sort l) = Bytes.sort l := Bytes.sort_congr (Bytes.sort_perm l)
  cases kind with
  | template => exact hsort files.templates
  | style => exact hsort files.styles
  | source => exact hsort files.sources
  | other code => exact List.mergeSort_nil

/-- Lists of files are told apart by their members. -/
theorem Gathers.files_eq {args : List Bytes} {files : FileSet} (h : Gathers t args files) {kind : Kind} {l : List Bytes}
    (hnodup : l.Nodup) (hmem : ∀ p, p ∈ files.files kind ↔ p ∈ l) : files.files kind = Bytes.sort l := by
  rw [← sort_files]
  exact Bytes.sort_congr ((List.perm_ext_iff_of_nodup (h.nodup kind) hnodup).mpr hmem)

section Discover

variable {fs : FileSystem} {o : Options} {cancelled : Bool} {files : FileSet} {args : List Bytes}

theorem targets_of_ne_nil (h : args ≠ []) : Options.targets { o with paths := args } = args := if_neg (by simpa using h)

theorem begins_of_discover (h : discover fs cancelled { o with paths := args } = .ok files) (hargs : args ≠ []) :
    ∃ t, Begins fs o cancelled t ∧ Gathers t args files := by
  obtain ⟨t, hbegins, s, hsearch, rfl⟩ := discover_eq_ok.mp h
  rw [targets_of_ne_nil hargs] at hsearch
  exact ⟨t, { hbegins with }, gathers_of_search hsearch⟩

theorem Begins.exists_discover (h : Begins fs o cancelled t) (hargs : args ≠ []) (hsearches : ∀ arg ∈ args, t.Searches arg) :
    ∃ files, discover fs cancelled { o with paths := args } = .ok files ∧ Gathers t args files := by
  obtain ⟨s, hsearch, hgathers⟩ := exists_gathers hsearches
  refine ⟨s.found, discover_eq_ok.mpr ⟨t, { h with }, s, ?_, rfl⟩, hgathers⟩
  rw [targets_of_ne_nil hargs]
  exact hsearch

end Discover

/-- Arguments together find what they find apart, every file once and in order. Neither the order of the arguments nor
how often one of them is given makes a difference, and arguments below others add nothing. -/
theorem discover_union {fs : FileSystem} {o : Options} {cancelled : Bool} {P Q : List Bytes} {a b : FileSet}
    (hP : P ≠ []) (hQ : Q ≠ []) (ha : discover fs cancelled { o with paths := P } = .ok a)
    (hb : discover fs cancelled { o with paths := Q } = .ok b) :
    ∃ c, discover fs cancelled { o with paths := P ++ Q } = .ok c ∧
      (∀ kind, (c.files kind).Nodup ∧ c.files kind = Bytes.sort (a.files kind ∪ b.files kind)) ∧
      (∀ args, (∀ arg, arg ∈ args ↔ arg ∈ P ++ Q) →
        ∃ c', discover fs cancelled { o with paths := args } = .ok c' ∧ ∀ kind, c'.files kind = c.files kind) ∧
      ∀ kind, b.files kind ⊆ a.files kind → c.files kind = a.files kind := by
  obtain ⟨t, hbegins, hgathersP⟩ := begins_of_discover ha hP
  obtain ⟨t', hbegins', hgathersQ⟩ := begins_of_discover hb hQ
  obtain rfl := hbegins.unique hbegins'
  have hsearches : ∀ arg ∈ P ++ Q, t.Searches arg := List.forall_mem_append.mpr ⟨hgathersP.searches, hgathersQ.searches⟩
  obtain ⟨c, hc, hgathers⟩ := hbegins.exists_discover (List.append_ne_nil_of_left_ne_nil hP Q) hsearches
  have hmem (kind : Kind) (p : Bytes) : p ∈ c.files kind ↔ p ∈ a.files kind ∨ p ∈ b.files kind := by
    rw [hgathers.mem, hgathersP.mem, hgathersQ.mem, ← or_and_right]
    simp only [List.mem_append, or_and_right, exists_or]
  refine ⟨c, hc, fun kind => ⟨hgathers.nodup kind, ?_⟩, fun args hargs => ?_, fun kind hsubset => ?_⟩
  · refine hgathers.files_eq (List.Nodup.union _ (hgathersQ.nodup kind)) fun p => ?_
    rw [hmem, List.mem_union_iff]
  · have hne : args ≠ [] := by
      obtain ⟨arg, harg⟩ := List.exists_mem_of_ne_nil P hP
      exact List.ne_nil_of_mem ((hargs arg).mpr (List.mem_append_left Q harg))
    obtain ⟨c', hc', hgathers'⟩ := hbegins.exists_discover hne fun arg harg => hsearches arg ((hargs arg).mp harg)
    refine ⟨c', hc', fun kind => ?_⟩
    rw [← sort_files c]
    refine hgathers'.files_eq (hgathers.nodup kind) fun p => ?_
    rw [hgathers'.mem, hgathers.mem]
    simp only [hargs]
  · rw [← sort_files a]
    refine hgathers.files_eq (hgathersP.nodup kind) fun p => ?_
    rw [hmem]
    exact or_iff_left_of_imp fun hp => hsubset hp

/-- A sheet that is given beside the directory that holds it is listed once. -/
theorem discover_union_linked : ∃ c, discover linked false { everything with paths := ["."] ++ ["a.css"] } = .ok c ∧
    c.files .style = [bytes "/a.css", bytes "/b.css"] := by
  have hdot : discover linked false { everything with paths := ["."] } = .ok ⟨[], [bytes "/a.css", bytes "/b.css"], []⟩ :=
    discover_linked
  have hsheet : discover linked false { everything with paths := ["a.css"] } = .ok ⟨[], [bytes "/a.css"], []⟩ := by
    have hpath : argumentPath linkedTerms.root "a.css" = "/a.css" := by decide
    have hstatus : linked.status "/a.css" = .ok (FileSystem.statusOf (.file ⟨"x", 0o644, 0⟩)) := by
      rw [FileSystem.status, FileSystem.statusAt, locate_linked.1]
      rfl
    have hsearch : linkedTerms.search ⟨[], .empty⟩ "a.css" = .ok ⟨[bytes "/a.css"], ⟨[], [bytes "/a.css"], []⟩⟩ := by
      rw [Terms.search_of_status (hpath ▸ hstatus), hpath]
      exact congrArg (Except.mapError Halt.fault) (consider_linked (s := ⟨[], .empty⟩) (List.mem_cons_self ..) rfl)
    refine discover_eq_ok.mpr ⟨linkedTerms, ⟨rfl, rfl, rfl, rfl, rfl, rfl⟩, ⟨[bytes "/a.css"], ⟨[], [bytes "/a.css"], []⟩⟩, ?_, rfl⟩
    rw [targets_of_ne_nil (by simp), List.foldlM_cons, hsearch]
    rfl
  obtain ⟨c, hc, -, -, hbelow⟩ := discover_union (by simp) (by simp) hdot hsheet
  have hsorted : Bytes.sort [bytes "/a.css", bytes "/b.css"] = [bytes "/a.css", bytes "/b.css"] :=
    List.mergeSort_of_pairwise (by decide)
  have hstyle : FileSet.files ⟨[], [bytes "/a.css"], []⟩ .style = [bytes "/a.css"] := List.mergeSort_singleton _
  refine ⟨c, hc, (hbelow .style ?_).trans hsorted⟩
  rw [hstyle, FileSet.files, hsorted]
  exact List.cons_subset_cons _ (List.nil_subset _)

end Codemod.Run
