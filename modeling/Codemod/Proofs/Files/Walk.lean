import Codemod.Files.FileSystem

namespace Codemod.Files.FileSystem

/-- A name that is looked up: neither a detour nor too long. -/
structure Proper (name : Bytes) : Prop where
  short : ¬255 < name.length
  ne_dot : name ≠ bytes "."
  ne_up : name ≠ bytes ".."

/-- Where the target of a link starts from. -/
def linkStart (target : Bytes) (here : Location) : Location := if Path.isAbsolute target then [] else here

/-- The places that a walk along names looks at, in order. -/
def looked (fs : FileSystem) (aim : Aim) (links : Nat) (here : Location) (names : List Bytes) : List Location :=
  match names with
  | [] => []
  | name :: rest =>
    if 255 < name.length then []
    else if name = "." then fs.looked aim links here rest
    else if name = ".." then fs.looked aim links here.dropLast rest
    else (here ++ [name]) :: match fs.entry? (here ++ [name]) with
      | some .directory => fs.looked aim links (here ++ [name]) rest
      | some (.link target) =>
        if aim.takesLink && rest.isEmpty then []
        else match links with
          | 0 => []
          | links + 1 => fs.looked aim links (linkStart target here) (pathNames target ++ rest)
      | _ => []
termination_by (links, names.length)

section Equations

variable (fs : FileSystem) (aim : Aim) (links : Nat) (here : Location)

theorem follow_nil : fs.follow aim links here [] = .ok here := by rw [follow]

theorem looked_nil : fs.looked aim links here [] = [] := by rw [looked]

theorem follow_long {name : Bytes} (h : 255 < name.length) (rest : List Bytes) :
    fs.follow aim links here (name :: rest) = .error .nameTooLong := by rw [follow, if_pos h]

theorem looked_long {name : Bytes} (h : 255 < name.length) (rest : List Bytes) :
    fs.looked aim links here (name :: rest) = [] := by rw [looked, if_pos h]

theorem follow_dot (rest : List Bytes) :
    fs.follow aim links here (bytes "." :: rest) = fs.follow aim links here rest := by
  rw [follow, if_neg (by decide), if_pos rfl]

theorem looked_dot (rest : List Bytes) :
    fs.looked aim links here (bytes "." :: rest) = fs.looked aim links here rest := by
  rw [looked, if_neg (by decide), if_pos rfl]

theorem follow_up (rest : List Bytes) :
    fs.follow aim links here (bytes ".." :: rest) = fs.follow aim links here.dropLast rest := by
  rw [follow, if_neg (by decide), if_neg (by decide), if_pos rfl]

theorem looked_up (rest : List Bytes) :
    fs.looked aim links here (bytes ".." :: rest) = fs.looked aim links here.dropLast rest := by
  rw [looked, if_neg (by decide), if_neg (by decide), if_pos rfl]

variable {fs links here} {name : Bytes} (hname : Proper name) (rest : List Bytes)

include hname

theorem follow_none (h : fs.entry? (here ++ [name]) = none) : fs.follow aim links here (name :: rest) =
    if aim.takesNothing && rest.isEmpty then .ok (here ++ [name]) else .error .noEntry := by
  rw [follow, if_neg hname.short, if_neg hname.ne_dot, if_neg hname.ne_up, h]

theorem follow_directory (h : fs.entry? (here ++ [name]) = some .directory) :
    fs.follow aim links here (name :: rest) = fs.follow aim links (here ++ [name]) rest := by
  rw [follow, if_neg hname.short, if_neg hname.ne_dot, if_neg hname.ne_up, h]

theorem follow_file {data : FileData} (h : fs.entry? (here ++ [name]) = some (.file data)) :
    fs.follow aim links here (name :: rest) =
      if rest.isEmpty then .ok (here ++ [name]) else .error .notDirectory := by
  rw [follow, if_neg hname.short, if_neg hname.ne_dot, if_neg hname.ne_up, h]

theorem follow_link {target : Bytes} (h : fs.entry? (here ++ [name]) = some (.link target)) :
    fs.follow aim links here (name :: rest) =
      if aim.takesLink && rest.isEmpty then .ok (here ++ [name])
      else match links with
        | 0 => .error .loop
        | links + 1 => fs.follow aim links (linkStart target here) (pathNames target ++ rest) := by
  rw [follow, if_neg hname.short, if_neg hname.ne_dot, if_neg hname.ne_up, h]
  rfl

theorem looked_seen : fs.looked aim links here (name :: rest) = (here ++ [name]) ::
    match fs.entry? (here ++ [name]) with
    | some .directory => fs.looked aim links (here ++ [name]) rest
    | some (.link target) =>
      if aim.takesLink && rest.isEmpty then []
      else match links with
        | 0 => []
        | links + 1 => fs.looked aim links (linkStart target here) (pathNames target ++ rest)
    | _ => [] := by
  rw [looked, if_neg hname.short, if_neg hname.ne_dot, if_neg hname.ne_up]

end Equations

/-- Induction along walks: each name is too long, a detour or looked up, and what is looked up may
lead on into a directory or along a link. -/
theorem walk_induction (fs : FileSystem) {motive : Nat → Location → List Bytes → Prop}
    (nil : ∀ links here, motive links here [])
    (long : ∀ links here name rest, 255 < name.length → motive links here (name :: rest))
    (dot : ∀ links here rest, motive links here rest → motive links here (bytes "." :: rest))
    (up : ∀ links here rest, motive links here.dropLast rest → motive links here (bytes ".." :: rest))
    (seen : ∀ links here name rest, Proper name →
      (fs.entry? (here ++ [name]) = some .directory → motive links (here ++ [name]) rest) →
      (∀ target k, fs.entry? (here ++ [name]) = some (.link target) → links = k + 1 →
        motive k (linkStart target here) (pathNames target ++ rest)) → motive links here (name :: rest))
    (links : Nat) (here : Location) (names : List Bytes) : motive links here names := by
  match names with
  | [] => exact nil links here
  | name :: rest =>
    by_cases hlong : 255 < name.length
    · exact long links here name rest hlong
    · by_cases hdot : name = bytes "."
      · rw [hdot]
        exact dot links here rest (walk_induction fs nil long dot up seen links here rest)
      · by_cases hup : name = bytes ".."
        · rw [hup]
          exact up links here rest (walk_induction fs nil long dot up seen links here.dropLast rest)
        · refine seen links here name rest ⟨hlong, hdot, hup⟩ (fun _ => ?_) (fun target k _ hk => ?_)
          · exact walk_induction fs nil long dot up seen links (here ++ [name]) rest
          · exact walk_induction fs nil long dot up seen k (linkStart target here) (pathNames target ++ rest)
termination_by (links, names.length)

/-- A walk goes the same way where all it looks at is the same. -/
theorem follow_congr {fs fs' : FileSystem} {aim : Aim} {links : Nat} {here : Location} {names : List Bytes}
    (h : ∀ w ∈ fs.looked aim links here names, fs'.entry? w = fs.entry? w) :
    fs'.follow aim links here names = fs.follow aim links here names ∧
      fs'.looked aim links here names = fs.looked aim links here names := by
  induction links, here, names using walk_induction fs with
  | nil links here => simp only [follow_nil, looked_nil, and_self]
  | long links here name rest hlong => simp only [follow_long _ _ _ _ hlong, looked_long _ _ _ _ hlong, and_self]
  | dot links here rest ih =>
    rw [looked_dot] at h
    simp only [follow_dot, looked_dot]
    exact ih h
  | up links here rest ih =>
    rw [looked_up] at h
    simp only [follow_up, looked_up]
    exact ih h
  | seen links here name rest hname ihdir ihlink =>
    rw [looked_seen aim hname rest, List.forall_mem_cons] at h
    obtain ⟨hhere, h⟩ := h
    rw [looked_seen aim hname, looked_seen aim hname, hhere]
    cases he : fs.entry? (here ++ [name]) with
    | none => exact ⟨by rw [follow_none aim hname rest he, follow_none aim hname rest (hhere.trans he)], rfl⟩
    | some entry =>
      rw [he] at h
      have he' := hhere.trans he
      cases entry with
      | file data => exact ⟨by rw [follow_file aim hname rest he, follow_file aim hname rest he'], rfl⟩
      | directory =>
        obtain ⟨hfollow, hlooked⟩ := ihdir he h
        exact ⟨by rw [follow_directory aim hname rest he, follow_directory aim hname rest he', hfollow],
          congrArg _ hlooked⟩
      | link target =>
        rw [follow_link aim hname rest he, follow_link aim hname rest he']
        dsimp only at h ⊢
        split
        · exact ⟨rfl, rfl⟩
        · next hon =>
          rw [if_neg hon] at h
          cases links with
          | zero => exact ⟨rfl, rfl⟩
          | succ k =>
            obtain ⟨hfollow, hlooked⟩ := ihlink target k he rfl h
            exact ⟨hfollow, congrArg _ hlooked⟩

/-- A place with directories all the way down to it. -/
def Ground (fs : FileSystem) (here : Location) : Prop := ∀ v, v <+: here → fs.entry? v = some .directory

section Ground

variable {fs : FileSystem} {here : Location}

theorem ground_nil : fs.Ground [] := by
  intro v hv
  rw [List.prefix_nil.mp hv]
  rfl

theorem Ground.self (h : fs.Ground here) : fs.entry? here = some .directory := h here List.prefix_rfl

theorem Ground.dropLast (h : fs.Ground here) : fs.Ground here.dropLast :=
  fun v hv => h v (hv.trans (List.dropLast_prefix here))

theorem Ground.snoc (h : fs.Ground here) {name : Bytes} (hname : fs.entry? (here ++ [name]) = some .directory) :
    fs.Ground (here ++ [name]) := by
  intro v hv
  rcases List.prefix_concat_iff.mp hv with rfl | hv
  · exact hname
  · exact h v hv

theorem Ground.linkStart (h : fs.Ground here) (target : Bytes) : fs.Ground (linkStart target here) := by
  unfold FileSystem.linkStart
  split
  · exact ground_nil
  · exact h

/-- Nothing that is not a directory lies above a place that a walk comes to. -/
theorem Ground.not_above (h : fs.Ground here) {w : Location} (hw : fs.entry? w ≠ some .directory) : ¬w <+: here :=
  fun hprefix => hw (h w hprefix)

end Ground

/-- A walk that looks at a place comes to it, with names left to go, whatever is there. -/
theorem exists_of_mem_looked {fs : FileSystem} {aim : Aim} {links : Nat} {here : Location} {names : List Bytes}
    (hground : fs.Ground here) {w : Location} (hw : w ∈ fs.looked aim links here names) :
    ∃ k h n rest, w = h ++ [n] ∧ Proper n ∧ fs.Ground h ∧ (fs.entry? w ≠ some .directory →
      ∀ fs' : FileSystem, (∀ v, ¬w <+: v → fs'.entry? v = fs.entry? v) →
        fs'.follow aim links here names = fs'.follow aim k h (n :: rest)) := by
  induction links, here, names using walk_induction fs with
  | nil links here =>
    rw [looked_nil] at hw
    cases hw
  | long links here name rest hlong =>
    rw [looked_long _ _ _ _ hlong] at hw
    cases hw
  | dot links here rest ih =>
    rw [looked_dot] at hw
    simp only [follow_dot]
    exact ih hground hw
  | up links here rest ih =>
    rw [looked_up] at hw
    simp only [follow_up]
    exact ih hground.dropLast hw
  | seen links here name rest hname ihdir ihlink =>
    by_cases hself : w = here ++ [name]
    · exact ⟨links, here, name, rest, hself, hname, hground, fun _ _ _ => rfl⟩
    · rw [looked_seen aim hname rest] at hw
      replace hw := (List.mem_cons.mp hw).resolve_left hself
      -- the walk has not come to `w` yet, nor gone below it
      have hbefore (hkind : fs.entry? w ≠ some .directory) : ¬w <+: here ++ [name] := fun hprefix =>
        (List.prefix_concat_iff.mp hprefix).elim hself (hground.not_above hkind)
      cases he : fs.entry? (here ++ [name]) with
      | none =>
        rw [he] at hw
        cases hw
      | some entry =>
        rw [he] at hw
        cases entry with
        | file data => cases hw
        | directory =>
          obtain ⟨k, h, n, rest', hsplit, hn, hh, hfollow⟩ := ihdir he (hground.snoc he) hw
          refine ⟨k, h, n, rest', hsplit, hn, hh, fun hkind fs' hsame => ?_⟩
          rw [follow_directory aim hname rest ((hsame _ (hbefore hkind)).trans he)]
          exact hfollow hkind fs' hsame
        | link target =>
          dsimp only at hw
          split at hw
          · cases hw
          · next hon =>
            cases links with
            | zero => cases hw
            | succ links =>
              obtain ⟨k, h, n, rest', hsplit, hn, hh, hfollow⟩ := ihlink target links he rfl (hground.linkStart target) hw
              refine ⟨k, h, n, rest', hsplit, hn, hh, fun hkind fs' hsame => ?_⟩
              rw [follow_link aim hname rest ((hsame _ (hbefore hkind)).trans he), if_neg hon]
              exact hfollow hkind fs' hsame

/-- A walk that ends at something other than a directory has a last name, which it looks up; what
it is after only matters there. -/
theorem exists_last {fs : FileSystem} {aim : Aim} {links : Nat} {here : Location} {names : List Bytes}
    (hground : fs.Ground here) {loc : Location} (hloc : fs.follow aim links here names = .ok loc)
    (hkind : fs.entry? loc ≠ some .directory) :
    ∃ k h n, Proper n ∧ fs.Ground h ∧ ∀ aim, fs.follow aim links here names = fs.follow aim k h [n] ∧
      h ++ [n] ∈ fs.looked aim links here names := by
  induction links, here, names using walk_induction fs with
  | nil links here =>
    rw [follow_nil] at hloc
    cases hloc
    exact absurd hground.self hkind
  | long links here name rest hlong =>
    rw [follow_long _ _ _ _ hlong] at hloc
    cases hloc
  | dot links here rest ih =>
    rw [follow_dot] at hloc
    simp only [follow_dot, looked_dot]
    exact ih hground hloc
  | up links here rest ih =>
    rw [follow_up] at hloc
    simp only [follow_up, looked_up]
    exact ih hground.dropLast hloc
  | seen links here name rest hname ihdir ihlink =>
    by_cases hrest : rest = []
    · refine ⟨links, here, name, hname, hground, fun aim => ⟨by rw [hrest], ?_⟩⟩
      rw [looked_seen aim hname]
      exact List.mem_cons_self
    · have hmore : rest.isEmpty = false := by simpa using hrest
      cases he : fs.entry? (here ++ [name]) with
      | none =>
        rw [follow_none aim hname rest he, hmore, Bool.and_false] at hloc
        cases hloc
      | some entry =>
        cases entry with
        | file data =>
          rw [follow_file aim hname rest he, hmore] at hloc
          cases hloc
        | directory =>
          rw [follow_directory aim hname rest he] at hloc
          obtain ⟨k, h, n, hn, hh, hfollow⟩ := ihdir he (hground.snoc he) hloc
          refine ⟨k, h, n, hn, hh, fun aim => ⟨?_, ?_⟩⟩
          · rw [follow_directory aim hname rest he]
            exact (hfollow aim).1
          · rw [looked_seen aim hname, he]
            exact List.mem_cons_of_mem _ (hfollow aim).2
        | link target =>
          rw [follow_link aim hname rest he, hmore, Bool.and_false, if_neg (by simp)] at hloc
          cases links with
          | zero => cases hloc
          | succ links =>
            obtain ⟨k, h, n, hn, hh, hfollow⟩ := ihlink target links he rfl (hground.linkStart target) hloc
            refine ⟨k, h, n, hn, hh, fun aim => ⟨?_, ?_⟩⟩
            · rw [follow_link aim hname rest he, hmore, Bool.and_false, if_neg (by simp)]
              exact (hfollow aim).1
            · rw [looked_seen aim hname, he, hmore, Bool.and_false]
              exact List.mem_cons_of_mem _ (hfollow aim).2

/-- What a walk ends at, if it is no directory, it has looked at. -/
theorem mem_looked_of_follow {fs : FileSystem} {aim : Aim} {links : Nat} {here : Location} {names : List Bytes}
    (hground : fs.Ground here) {loc : Location} (hloc : fs.follow aim links here names = .ok loc)
    (hkind : fs.entry? loc ≠ some .directory) : loc ∈ fs.looked aim links here names := by
  induction links, here, names using walk_induction fs with
  | nil links here =>
    rw [follow_nil] at hloc
    cases hloc
    exact absurd hground.self hkind
  | long links here name rest hlong =>
    rw [follow_long _ _ _ _ hlong] at hloc
    cases hloc
  | dot links here rest ih =>
    rw [follow_dot] at hloc
    rw [looked_dot]
    exact ih hground hloc
  | up links here rest ih =>
    rw [follow_up] at hloc
    rw [looked_up]
    exact ih hground.dropLast hloc
  | seen links here name rest hname ihdir ihlink =>
    rw [looked_seen aim hname]
    cases he : fs.entry? (here ++ [name]) with
    | none =>
      rw [follow_none aim hname rest he] at hloc
      split at hloc
      · cases hloc
        exact List.mem_cons_self
      · cases hloc
    | some entry =>
      cases entry with
      | file data =>
        rw [follow_file aim hname rest he] at hloc
        split at hloc
        · cases hloc
          exact List.mem_cons_self
        · cases hloc
      | directory =>
        rw [follow_directory aim hname rest he] at hloc
        exact List.mem_cons_of_mem _ (ihdir he (hground.snoc he) hloc)
      | link target =>
        rw [follow_link aim hname rest he] at hloc
        dsimp only
        split at hloc
        · cases hloc
          exact List.mem_cons_self
        · next hon =>
          rw [if_neg hon]
          cases links with
          | zero => cases hloc
          | succ links => exact List.mem_cons_of_mem _ (ihlink target links he rfl (hground.linkStart target) hloc)

/-- A walk after the thing itself looks at least as far as any other. -/
theorem looked_subset_thing (fs : FileSystem) (aim : Aim) (links : Nat) (here : Location) (names : List Bytes) :
    fs.looked aim links here names ⊆ fs.looked .thing links here names := by
  induction links, here, names using walk_induction fs with
  | nil links here => rw [looked_nil, looked_nil]; exact List.Subset.refl _
  | long links here name rest hlong => rw [looked_long _ _ _ _ hlong, looked_long _ _ _ _ hlong]; exact List.Subset.refl _
  | dot links here rest ih => rwa [looked_dot, looked_dot]
  | up links here rest ih => rwa [looked_up, looked_up]
  | seen links here name rest hname ihdir ihlink =>
    rw [looked_seen aim hname, looked_seen .thing hname]
    apply List.cons_subset_cons
    cases he : fs.entry? (here ++ [name]) with
    | none => exact List.Subset.refl _
    | some entry =>
      cases entry with
      | file data => exact List.Subset.refl _
      | directory => exact ihdir he
      | link target =>
        dsimp only
        split
        · exact List.nil_subset _
        · cases links with
          | zero => exact List.nil_subset _
          | succ links => exact ihlink target links he rfl

/-- No walk gets past a place: one that comes to it ends there, and one after the thing itself ends
as `result` says. -/
structure Barred (fs : FileSystem) (w : Location) (result : Except Errno Location) : Prop where
  kind : fs.entry? w ≠ some .directory
  ends : ∀ {aim k h n rest loc}, w = h ++ [n] → fs.follow aim k h (n :: rest) = .ok loc →
    rest = [] ∧ fs.entry? loc ≠ some .directory
  thing : ∀ {k h n rest loc}, w = h ++ [n] → fs.follow .thing k h (n :: rest) = .ok loc → result = .ok loc
  absent : ∀ {k h n rest}, w = h ++ [n] → fs.follow .thing k h (n :: rest) = .error .noEntry →
    result = .error .noEntry

/-- Where a walk ends at no directory, and not for too many links, no longer one passes, and one
with more links allowed ends alike. -/
theorem follow_append {fs : FileSystem} {links : Nat} {here : Location} {names : List Bytes}
    (hground : fs.Ground here) (hloop : fs.follow .thing links here names ≠ .error .loop)
    (hkind : ∀ loc, fs.follow .thing links here names = .ok loc → fs.entry? loc ≠ some .directory)
    (aim : Aim) (k : Nat) (rest : List Bytes) :
    (∀ loc, fs.follow aim k here (names ++ rest) = .ok loc → rest = [] ∧ fs.entry? loc ≠ some .directory) ∧
      (∀ loc, aim = .thing → fs.follow aim k here (names ++ rest) = .ok loc →
        fs.follow .thing links here names = .ok loc) ∧
      (fs.follow aim k here (names ++ rest) = .error .noEntry →
        fs.follow .thing links here names = .error .noEntry) := by
  induction links, here, names using walk_induction fs generalizing k with
  | nil links here =>
    exact absurd hground.self (hkind here (follow_nil ..))
  | long links here name names hlong =>
    rw [List.cons_append, follow_long _ _ _ _ hlong]
    exact ⟨by rintro loc ⟨⟩, by rintro loc - ⟨⟩, by rintro ⟨⟩⟩
  | dot links here names ih =>
    rw [follow_dot] at hloop hkind
    rw [List.cons_append, follow_dot, follow_dot]
    exact ih hground hloop hkind k
  | up links here names ih =>
    rw [follow_up] at hloop hkind
    rw [List.cons_append, follow_up, follow_up]
    exact ih hground.dropLast hloop hkind k
  | seen links here name names hname ihdir ihlink =>
    have hnil (h : (names ++ rest).isEmpty = true) : names = [] ∧ rest = [] :=
      List.append_eq_nil_iff.mp (List.isEmpty_iff.mp h)
    rw [List.cons_append]
    cases he : fs.entry? (here ++ [name]) with
    | none =>
      rw [follow_none aim hname _ he, follow_none .thing hname names he]
      refine ⟨fun loc hloc => ?_, ?_, fun _ => rfl⟩
      · split at hloc
        · next hend =>
          cases hloc
          exact ⟨(hnil (Bool.and_eq_true_iff.mp hend).2).2, by rw [he]; simp⟩
        · cases hloc
      · rintro loc rfl hloc
        cases hloc
    | some entry =>
      cases entry with
      | file data =>
        rw [follow_file aim hname _ he, follow_file .thing hname names he]
        refine ⟨fun loc hloc => ?_, fun loc _ hloc => ?_, fun h => ?_⟩
        · split at hloc
          · next hend =>
            cases hloc
            exact ⟨(hnil hend).2, by rw [he]; simp⟩
          · cases hloc
        · split at hloc
          · next hend =>
            rw [(hnil hend).1]
            exact hloc
          · cases hloc
        · split at h <;> cases h
      | directory =>
        rw [follow_directory .thing hname names he] at hloop hkind
        rw [follow_directory aim hname _ he, follow_directory .thing hname names he]
        exact ihdir he (hground.snoc he) hloop hkind k
      | link target =>
        rw [follow_link .thing hname names he] at hloop hkind ⊢
        rw [follow_link aim hname _ he]
        cases links with
        | zero => exact absurd rfl hloop
        | succ links =>
          have ih := ihlink target links he rfl (hground.linkStart target) hloop hkind
          simp only [List.append_assoc] at ih
          split
          · next hend =>
            refine ⟨fun loc hloc => ?_, ?_, by rintro ⟨⟩⟩
            · cases hloc
              exact ⟨(hnil (Bool.and_eq_true_iff.mp hend).2).2, by rw [he]; simp⟩
            · rintro loc rfl
              cases hend
          · cases k with
            | zero => exact ⟨by rintro loc ⟨⟩, by rintro loc - ⟨⟩, by rintro ⟨⟩⟩
            | succ k => exact ih k

end Codemod.Files.FileSystem
