import Codemod.Proofs.Settings.Layers
import Codemod.Settings.Check

namespace Codemod

open Classify Workspace

namespace Workspace.Kind

theorem ofName_eq_ok {name : String} {kind : Kind} : ofName name = .ok kind ↔ kind ∈ all ∧ kind.name = name := by
  unfold ofName
  constructor
  · intro h
    split at h
    · next found hfound =>
      cases h
      exact ⟨List.mem_of_find?_eq_some hfound, by simpa using List.find?_some hfound⟩
    · cases h
  · rintro ⟨hmem, rfl⟩
    have hfind : ∀ kind ∈ all, all.find? (·.name = kind.name) = some kind := by decide
    rw [hfind kind hmem]

end Workspace.Kind

namespace Settings

/-- A name, in any letters, of a kind. -/
def Names (name : String) (kind : Kind) : Prop := Kind.ofName (Text.lowerString name) = .ok kind

instance (name : String) (kind : Kind) : Decidable (Names name kind) :=
  decidable_of_iff (kind ∈ Kind.all ∧ kind.name = Text.lowerString name) Kind.ofName_eq_ok.symm

theorem names_iff_of_names {name other : String} {kind : Kind} (h : Names name kind) :
    Names other kind ↔ Text.lowerString other = Text.lowerString name := by
  unfold Names at h ⊢
  rw [Kind.ofName_eq_ok] at h ⊢
  rw [← h.2]
  exact ⟨fun hother => hother.2.symm, fun hother => ⟨h.1, hother.symm⟩⟩

section Resolve

/-- The extensions of every kind, as the settings have them. -/
def resolved (s : Settings) : Except Fault Extensions := do
  let lists := (← s.kindExtensions).getD defaultLists
  return lists.map fun (kind, list) => (kind, list.getD [])

theorem classifier_eq (s : Settings) : s.classifier = s.resolved.map .ofExtensions := by
  unfold classifier resolved
  cases s.kindExtensions <;> rfl

/-- One list for each kind that files have. -/
def table (f : Kind → Option (List String)) : KindLists := Kind.all.map fun kind => (kind, f kind)

/-- Give a kind the list that stands under a name. -/
def assign (known : KindLists) (entry : String × Option (List String)) : Except Fault KindLists := do
  let kind ← (Kind.ofName (Text.lowerString entry.1)).mapError (.within "extensions")
  return known.set kind entry.2

theorem kindExtensions_map (s : Settings) :
    s.kindExtensions.map (·.getD defaultLists) = (s.extensions.getD []).foldlM assign defaultLists := by
  unfold kindExtensions
  split
  · next h =>
    rw [h]
    rfl
  · show ((s.extensions.getD []).foldlM assign defaultLists >>= fun result => pure (some result)).map _ = _
    cases (s.extensions.getD []).foldlM assign defaultLists <;> rfl

/-- The list that a kind gets in the end. -/
def latest (lists : ExtensionLists) (kind : Kind) (before : Option (List String)) : Option (List String) :=
  lists.foldl (fun known entry => if Names entry.1 kind then entry.2 else known) before

variable {lists : ExtensionLists}

theorem table_set (f : Kind → Option (List String)) (kind : Kind) (list : Option (List String)) :
    (table f).set kind list = table fun other => if other = kind then list else f other := by
  unfold table KindLists.set
  rw [List.map_map]
  refine List.map_congr_left fun other _ => ?_
  by_cases h : other = kind
  · simp [h]
  · simp [h]

theorem foldlM_assign (hnames : ∀ entry ∈ lists, ∃ kind ∈ Kind.all, Names entry.1 kind) (f : Kind → Option (List String)) :
    lists.foldlM assign (table f) = .ok (table fun kind => latest lists kind (f kind)) := by
  induction lists generalizing f with
  | nil => rfl
  | cons entry rest ih =>
    obtain ⟨⟨kind, -, hkind⟩, hrest⟩ := List.forall_mem_cons.mp hnames
    have hassign : assign (table f) entry = .ok (table fun other => if Names entry.1 other then entry.2 else f other) := by
      have hother (other : Kind) : Names entry.1 other ↔ other = kind := by
        unfold Names
        rw [hkind]
        exact ⟨fun h => (Except.ok.inj h).symm, fun h => h ▸ rfl⟩
      simp only [hother]
      rw [← table_set, assign, hkind]
      rfl
    rw [List.foldlM_cons, hassign]
    exact ih hrest _

theorem resolved_of_names {s : Settings} (hnames : ∀ entry ∈ s.extensions.getD [], ∃ kind ∈ Kind.all, Names entry.1 kind) :
    s.resolved = .ok (Kind.all.map fun kind =>
      (kind, (latest (s.extensions.getD []) kind (defaultExtensions.lookup kind)).getD [])) := by
  have hlists := s.kindExtensions_map
  have hdefault : defaultLists = table (List.lookup · defaultExtensions) := rfl
  rw [hdefault, foldlM_assign hnames] at hlists
  unfold resolved
  cases hkind : s.kindExtensions with
  | error e =>
    rw [hkind] at hlists
    cases hlists
  | ok known =>
    rw [hkind] at hlists
    replace hlists := Except.ok.inj hlists
    dsimp only at hlists
    show Except.ok ((known.getD defaultLists).map _) = _
    rw [hdefault, hlists, table, List.map_map]
    rfl

theorem latest_append (earlier later : ExtensionLists) (kind : Kind) (before : Option (List String)) :
    latest (earlier ++ later) kind before = latest later kind (latest earlier kind before) := List.foldl_append

/-- The list that stands last under a name of the kind counts. -/
theorem latest_concat {entry : String × Option (List String)} {kind : Kind} (h : Names entry.1 kind)
    (before : Option (List String)) : latest (lists ++ [entry]) kind before = entry.2 := by
  rw [latest_append]
  exact if_pos h

/-- What a kind gets stands under one of its names, if there is any. -/
theorem latest_cases (lists : ExtensionLists) (kind : Kind) (before : Option (List String)) :
    (∀ entry ∈ lists, ¬Names entry.1 kind) ∧ latest lists kind before = before ∨
    ∃ entry ∈ lists, Names entry.1 kind ∧ latest lists kind before = entry.2 := by
  induction lists using List.reverseRecOn with
  | nil => exact .inl ⟨nofun, rfl⟩
  | append_singleton rest entry ih =>
    by_cases hentry : Names entry.1 kind
    · exact .inr ⟨entry, by simp, hentry, latest_concat hentry before⟩
    · have hkept : latest (rest ++ [entry]) kind before = latest rest kind before := by
        rw [latest_append]
        exact if_neg hentry
      rw [hkept]
      obtain ⟨hnone, hlatest⟩ | ⟨found, hfound, hnamed, hlatest⟩ := ih
      · exact .inl ⟨List.forall_mem_append.mpr ⟨hnone, List.forall_mem_singleton.mpr hentry⟩, hlatest⟩
      · exact .inr ⟨found, List.mem_append_left _ hfound, hnamed, hlatest⟩

/-- Entries in another order come to the same extensions, if all names of the kind agree. -/
theorem latest_perm {first second : ExtensionLists} {kind : Kind} (hperm : first.Perm second)
    (hsame : ∀ a ∈ first, ∀ b ∈ first, Names a.1 kind → Names b.1 kind → a.2.getD [] = b.2.getD [])
    (before : Option (List String)) : (latest first kind before).getD [] = (latest second kind before).getD [] := by
  obtain ⟨hnone, hfirst⟩ | ⟨a, ha, hkind, hfirst⟩ := latest_cases first kind before
  · obtain ⟨-, hsecond⟩ | ⟨b, hb, hkind, -⟩ := latest_cases second kind before
    · rw [hfirst, hsecond]
    · exact absurd hkind (hnone b (hperm.mem_iff.mpr hb))
  · obtain ⟨hnone, -⟩ | ⟨b, hb, hkind', hsecond⟩ := latest_cases second kind before
    · exact absurd hkind (hnone a (hperm.mem_iff.mp ha))
    · rw [hfirst, hsecond]
      exact hsame a ha b (hperm.mem_iff.mpr hb) hkind hkind'

end Resolve

section Check

variable {s : Settings}

/-- Names of kinds, with extensions that a file name can end in. -/
def Usable (lists : ExtensionLists) : Prop := ∀ entry ∈ lists,
  (∃ kind ∈ Kind.all, Names entry.1 kind) ∧ ∀ extension ∈ entry.2.getD [], isExtension extension = true

instance (lists : ExtensionLists) : Decidable (Usable lists) := inferInstanceAs (Decidable (∀ entry ∈ lists, _))

theorem extensionErrors_eq_nil : s.extensionErrors = [] ↔ Usable (s.extensions.getD []) := by
  unfold extensionErrors Usable
  rw [List.flatMap_eq_nil_iff]
  refine forall_congr' fun entry => ?_
  rw [List.mem_mergeSort]
  refine imp_congr_right fun _ => ?_
  obtain ⟨name, list⟩ := entry
  unfold Names
  dsimp only
  cases hkind : Kind.ofName (Text.lowerString name) with
  | error e => simp
  | ok kind => simp [List.filter_eq_nil_iff, (Kind.ofName_eq_ok.mp hkind).1]

theorem usable_of_check {registry : Option Migration.Registry} (h : (s.check registry).errors = []) :
    Usable (s.extensions.getD []) := extensionErrors_eq_nil.mp (List.append_eq_nil_iff.mp h).2

/-- Settings of extensions alone. -/
def ofLists (lists : ExtensionLists) : Settings := { empty with extensions := some lists }

theorem check_ofLists {lists : ExtensionLists} (h : Usable lists) : ((ofLists lists).check none).errors = [] :=
  extensionErrors_eq_nil.mpr h

end Check

/-- The order in which the names are gone through makes no difference. -/
def Orderless (s : Settings) : Prop := ∀ first second : ExtensionLists, first.Perm (s.extensions.getD []) →
  second.Perm (s.extensions.getD []) → { s with extensions := some first }.resolved = { s with extensions := some second }.resolved

/-- Settings that pass the check give each kind its extensions in any order of the names. They are the same in every
order if and only if names that differ only in the case of their letters have the same extensions. -/
theorem orderless_iff {s : Settings} {registry : Option Migration.Registry} (hcheck : (s.check registry).errors = []) :
    (∀ lists : ExtensionLists, lists.Perm (s.extensions.getD []) → ∃ extensions, { s with extensions := some lists }.resolved = .ok extensions) ∧
    (s.Orderless ↔ ∀ a ∈ s.extensions.getD [], ∀ b ∈ s.extensions.getD [],
      Text.lowerString a.1 = Text.lowerString b.1 → a.2.getD [] = b.2.getD []) := by
  have hnames (entry) (hentry : entry ∈ s.extensions.getD []) : ∃ kind ∈ Kind.all, Names entry.1 kind :=
    (usable_of_check hcheck entry hentry).1
  have hresolved {lists : ExtensionLists} (hperm : lists.Perm (s.extensions.getD [])) :=
    resolved_of_names (s := { s with extensions := some lists }) fun entry hentry => hnames entry (hperm.mem_iff.mp hentry)
  refine ⟨fun lists hperm => ⟨_, hresolved hperm⟩, fun horderless a ha b hb hsame => ?_, fun hsame first second hfirst hsecond => ?_⟩
  · -- the two orders that end in one of the entries each
    have hlast {entry : String × Option (List String)} (hentry : entry ∈ s.extensions.getD []) :
        ((s.extensions.getD []).erase entry ++ [entry]).Perm (s.extensions.getD []) :=
      (List.perm_append_singleton _ _).trans (List.perm_cons_erase hentry).symm
    obtain ⟨kind, hmem, hkind⟩ := hnames a ha
    have hsame' := horderless _ _ (hlast ha) (hlast hb)
    rw [hresolved (hlast ha), hresolved (hlast hb)] at hsame'
    have hlists := List.map_inj_left.mp (Except.ok.inj hsame') kind hmem
    have hkind' : Names b.1 kind := (names_iff_of_names hkind).mpr hsame.symm
    simpa [latest_concat hkind, latest_concat hkind'] using hlists
  · rw [hresolved hfirst, hresolved hsecond]
    refine congrArg Except.ok (List.map_congr_left fun kind _ => congrArg (Prod.mk kind) ?_)
    refine latest_perm (hfirst.trans hsecond.symm) (fun a ha b hb hkind hkind' => ?_) _
    exact hsame a (hfirst.mem_iff.mp ha) b (hfirst.mem_iff.mp hb) ((names_iff_of_names hkind').mp hkind)

/-- Names of two kinds are not in each other's way. -/
theorem orderless_iff_apart : (ofLists [("style", some [".css"]), ("Source", some ["mts"])]).Orderless := by
  refine (orderless_iff (check_ofLists ?_)).2.mpr ?_
  · decide +kernel
  · show ∀ a ∈ [("style", some [".css"]), ("Source", some ["mts"])], ∀ b ∈ [("style", some [".css"]), ("Source", some ["mts"])], _
    decide +kernel

/-- Two layers of settings that write the name of a kind in different letters: both lists are kept, the check has
nothing to say, and the order of the names tells which list the kind gets. -/
theorem not_orderless : ∃ lists : ExtensionLists,
    (ofLists [("style", some [".css"])]).merge (ofLists [("Style", some [".scss"])]) = ofLists lists ∧
    lists.names.Nodup ∧ ((ofLists lists).check none).errors = [] ∧ ¬(ofLists lists).Orderless := by
  let lists : ExtensionLists := [("style", some [".css"]), ("Style", some [".scss"])]
  have hfirst : (ofLists lists).resolved = .ok [(.template, [".html"]), (.style, [".scss"]), (.source, [".ts"])] := by
    rfl
  have hsecond : (ofLists lists.reverse).resolved = .ok [(.template, [".html"]), (.style, [".css"]), (.source, [".ts"])] := by
    rfl
  refine ⟨lists, rfl, by decide, check_ofLists (by decide), fun h => ?_⟩
  have hsame : (ofLists lists).resolved = (ofLists lists.reverse).resolved := h _ _ .rfl (List.reverse_perm lists)
  rw [hfirst, hsecond] at hsame
  exact absurd (Except.ok.inj hsame) (by decide)

end Settings

end Codemod
