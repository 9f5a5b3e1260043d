import Codemod.Proofs.Migration.Registered
import Codemod.Run.Runner

namespace Codemod

namespace Migration.Registry

/-- Some migration leads to the version or beyond it, or none is registered at all. -/
def Reaches (r : Registry) (v : Version) : Prop := r.migrations = [] ∨ ∃ m ∈ r.migrations, v.le m.version = true

/-- The selection of all that is newer than a version. -/
structure SelectsNewer (r : Registry) (source : String) (v : Version) (selected : List Migration) : Prop where
  succeeds : r.select source "" = .ok selected
  member : ∀ m, m ∈ selected ↔ m ∈ r.migrations ∧ v.compare m.version = .lt
  ascending : selected.Pairwise Precedes

/-- Why no migrations are selected for a project that is newer than all of them. -/
def newerThanLatest (v latest : Version) : Fault :=
  .filed .invalidVersion (.plain (.concat ["from ", v.toText, " is newer than to ", latest.toText]))

section Latest

variable {r : Registry} {source : String} {v latest : Version}

theorem latest?_eq_some_iff : r.latest? = some latest ↔ ∃ earlier m, r.migrations = earlier ++ [m] ∧ m.version = latest := by
  rw [latest?, Option.map_eq_some_iff]
  constructor
  · rintro ⟨m, hm, hversion⟩
    obtain ⟨earlier, hsplit⟩ := List.getLast?_eq_some_iff.mp hm
    exact ⟨earlier, m, hsplit, hversion⟩
  · rintro ⟨earlier, m, hsplit, hversion⟩
    exact ⟨m, List.getLast?_eq_some_iff.mpr ⟨earlier, hsplit⟩, hversion⟩

/-- Without a target a version is compared with the latest one, if there is one. -/
theorem select_latest_eq (hv : Version.ofString source = .ok v) : r.select source "" = match r.latest? with
    | none => .ok []
    | some latest => if v.compare latest = .gt then .error (newerThanLatest v latest)
      else .ok (r.migrations.filter fun m => m.version.compare v = .gt && m.version.le latest) := by
  unfold select
  rw [hv]
  rfl

namespace Sound

variable (h : r.Sound)

include h

/-- No registered version comes after the latest. -/
theorem le_latest (hlatest : r.latest? = some latest) : ∀ m ∈ r.migrations, m.version.le latest = true := by
  obtain ⟨earlier, last, hsplit, rfl⟩ := latest?_eq_some_iff.mp hlatest
  have hascending := h.ascending
  rw [hsplit] at hascending ⊢
  intro m hm
  obtain hm | hm := List.mem_append.mp hm
  · exact Version.le_of_lt ((List.pairwise_append.mp hascending).2.2 m hm last (List.mem_singleton_self _))
  · rw [List.mem_singleton.mp hm, Version.le_iff, Version.compare_self]
    exact nofun

theorem reaches_iff (hlatest : r.latest? = some latest) : r.Reaches v ↔ v.le latest = true := by
  obtain ⟨earlier, last, hsplit, hversion⟩ := latest?_eq_some_iff.mp hlatest
  have hlast : last ∈ r.migrations := hsplit ▸ List.mem_append_right _ (List.mem_singleton_self _)
  constructor
  · rintro (hnil | ⟨m, hm, hle⟩)
    · rw [hnil] at hlast
      cases hlast
    · exact Version.le_trans hle (h.le_latest hlatest m hm)
  · intro hle
    exact .inr ⟨last, hlast, hversion ▸ hle⟩

/-- A project that is not newer than all migrations gets those that are newer than it. -/
theorem exists_selectsNewer (hv : Version.ofString source = .ok v) (hreaches : r.Reaches v) :
    ∃ selected, r.SelectsNewer source v selected := by
  cases hlatest : r.latest? with
  | none =>
    have hnil : r.migrations = [] := List.getLast?_eq_none_iff.mp (Option.map_eq_none_iff.mp hlatest)
    refine ⟨[], ?_, fun m => ?_, List.Pairwise.nil⟩
    · rw [select_latest_eq hv, hlatest]
    · simp [hnil]
  | some latest =>
    have hle := (h.reaches_iff hlatest).mp hreaches
    refine ⟨r.migrations.filter fun m => m.version.compare v = .gt && m.version.le latest, ?_, fun m => ?_,
      h.ascending.filter _⟩
    · rw [select_latest_eq hv, hlatest]
      exact if_neg (Version.le_iff.mp hle)
    · rw [List.mem_filter, Bool.and_eq_true, decide_eq_true_eq, Version.gt_iff_lt]
      constructor
      · rintro ⟨hm, hnewer, -⟩
        exact ⟨hm, hnewer⟩
      · rintro ⟨hm, hnewer⟩
        exact ⟨hm, hnewer, h.le_latest hlatest m hm⟩

/-- A project that is newer than all migrations is refused. -/
theorem exists_newerThanLatest (hv : Version.ofString source = .ok v) (hbeyond : ¬r.Reaches v) :
    ∃ latest, r.latest? = some latest ∧ r.select source "" = .error (newerThanLatest v latest) := by
  cases hlatest : r.latest? with
  | none =>
    have hnil : r.migrations = [] := List.getLast?_eq_none_iff.mp (Option.map_eq_none_iff.mp hlatest)
    exact absurd (.inl hnil) hbeyond
  | some latest =>
    have hgt : v.compare latest = .gt := by
      rw [h.reaches_iff hlatest, Version.le_iff, not_not] at hbeyond
      exact hbeyond
    refine ⟨latest, rfl, ?_⟩
    rw [select_latest_eq hv, hlatest]
    exact if_pos hgt

end Sound

end Latest

theorem SelectsNewer.eq_nil {r : Registry} {source : String} {v : Version} {selected : List Migration}
    (h : r.SelectsNewer source v selected) (hcurrent : ∀ m ∈ r.migrations, m.version.le v = true) : selected = [] := by
  rw [List.eq_nil_iff_forall_not_mem]
  intro m hm
  obtain ⟨hmem, hnewer⟩ := (h.member m).mp hm
  exact Version.not_le.mpr hnewer (hcurrent m hmem)

end Migration.Registry

namespace Run

open Files Migration

/-- The version of the project, as set or as its manifest says. -/
def projectVersion (fs : FileSystem) (o : Options) : Except Fault String :=
  if o.settings.fromVersion.isEmpty then do detectVersion fs (← rootDirectory fs o) else .ok o.settings.fromVersion

section Plan

variable {fs : FileSystem} {r : Registry} {o : Options} {source : String} {v : Version}
  (hproject : projectVersion fs o = .ok source) (htarget : o.settings.toVersion = "")

include hproject htarget

theorem plan_eq (hv : Version.ofString source = .ok v) : plan fs r o = (r.select source "").map (v, ·) := by
  have hplan : plan fs r o = do
      let current ← projectVersion fs o
      let migrations ← r.select current o.settings.toVersion
      let version ← Version.ofString current
      return (version, migrations) := by
    unfold plan projectVersion
    split
    · cases rootDirectory fs o <;> rfl
    · rfl
  rw [hplan, hproject, htarget]
  show (r.select source "" >>= fun migrations => Version.ofString source >>= fun version => pure (version, migrations)) = _
  rw [hv]
  cases r.select source "" <;> rfl

/-- A run without migrations ends before it looks at any file. -/
theorem run_of_select_nil (hv : Version.ofString source = .ok v) (hselect : r.select source "" = .ok []) (cancelled : Bool) :
    run fs r cancelled o =
      ⟨none, some (.fault (.filed .nothingToDo (.plain ("project is on " ++ v.toText)))), fs, []⟩ := by
  unfold run
  rw [plan_eq hproject htarget hv, hselect]
  rfl

theorem run_of_select_error (hv : Version.ofString source = .ok v) {e : Fault} (hselect : r.select source "" = .error e)
    (cancelled : Bool) : run fs r cancelled o = ⟨none, some (.fault e), fs, []⟩ := by
  unfold run
  rw [plan_eq hproject htarget hv, hselect]
  rfl

end Plan

/-- Without a target version, whatever calls have built the registry: a project that is not newer than every
migration gets exactly those that are newer than it, ascending, and the run of one that has them all behind it
ends with nothing to do. A project that is newer than every migration is refused, and so is its run. -/
theorem nothing_to_do_of_run (calls : List (Option Draft)) {source : String} {v : Version}
    (hv : Version.ofString source = .ok v) :
    let r := Registry.ofCalls calls
    (r.Reaches v → ∃ selected, r.SelectsNewer source v selected ∧
      ((∀ m ∈ r.migrations, m.version.le v = true) → selected = [] ∧
        ∀ fs cancelled o, projectVersion fs o = .ok source → o.settings.toVersion = "" → run fs r cancelled o =
          ⟨none, some (.fault (.filed .nothingToDo (.plain ("project is on " ++ v.toText)))), fs, []⟩)) ∧
    (¬r.Reaches v → ∃ latest, r.latest? = some latest ∧ r.select source "" = .error (Registry.newerThanLatest v latest) ∧
      ∀ fs cancelled o, projectVersion fs o = .ok source → o.settings.toVersion = "" →
        run fs r cancelled o = ⟨none, some (.fault (Registry.newerThanLatest v latest)), fs, []⟩) := by
  intro r
  have hsound : r.Sound := Registry.sound_ofCalls calls
  constructor
  · intro hreaches
    obtain ⟨selected, hselected⟩ := hsound.exists_selectsNewer hv hreaches
    refine ⟨selected, hselected, fun hcurrent => ?_⟩
    obtain rfl := hselected.eq_nil hcurrent
    exact ⟨rfl, fun fs cancelled o hproject htarget =>
      run_of_select_nil hproject htarget hv hselected.succeeds cancelled⟩
  · intro hbeyond
    obtain ⟨latest, hlatest, hselect⟩ := hsound.exists_newerThanLatest hv hbeyond
    exact ⟨latest, hlatest, hselect, fun fs cancelled o hproject htarget =>
      run_of_select_error hproject htarget hv hselect cancelled⟩

/-- A project on a release candidate of the latest version has one migration to go, one on the latest none. -/
theorem nothing_to_do_of_run_candidate :
    let calls : List (Option Draft) := [some ⟨"12", "", []⟩, some ⟨"11.1", "", []⟩]
    let r := Registry.ofCalls calls
    let candidate : Version := ⟨12, 0, 0, [.word ['r', 'c'], .number 1]⟩
    Version.ofString "12.0.0-rc.1" = .ok candidate ∧ Version.ofString "v12.0.0" = .ok ⟨12, 0, 0, []⟩ ∧
    (∃ selected, r.SelectsNewer "12.0.0-rc.1" candidate selected ∧ selected.map (·.version) = [⟨12, 0, 0, []⟩]) ∧
    r.select "v12.0.0" "" = .ok [] := by
  intro calls r candidate
  have hcandidate : Version.ofString "12.0.0-rc.1" = .ok candidate := rfl
  have hlatest : Version.ofString "v12.0.0" = .ok ⟨12, 0, 0, []⟩ := rfl
  have hversions : r.migrations.map (·.version) = [⟨11, 1, 0, []⟩, ⟨12, 0, 0, []⟩] := by decide
  have hreaches (v : Version) (hle : v.le ⟨12, 0, 0, []⟩ = true) : r.Reaches v := by
    have hmem : (⟨12, 0, 0, []⟩ : Version) ∈ r.migrations.map (·.version) := by simp [hversions]
    obtain ⟨m, hm, hversion⟩ := List.mem_map.mp hmem
    exact .inr ⟨m, hm, hversion ▸ hle⟩
  obtain ⟨selected, hselected, -⟩ := (nothing_to_do_of_run calls hcandidate).1 (hreaches _ (by decide))
  obtain ⟨none, hnone, hdone⟩ := (nothing_to_do_of_run calls hlatest).1 (hreaches _ (by decide))
  have hcurrent : ∀ m ∈ r.migrations, m.version.le ⟨12, 0, 0, []⟩ = true := by
    have hall : ∀ v ∈ r.migrations.map (·.version), v.le ⟨12, 0, 0, []⟩ = true := by
      rw [hversions]
      decide
    exact fun m hm => hall _ (List.mem_map_of_mem hm)
  obtain ⟨rfl, -⟩ := hdone hcurrent
  have hselectedVersions : (r.select "12.0.0-rc.1" "").toOption.map (List.map (·.version)) = some [⟨12, 0, 0, []⟩] := by
    decide
  rw [hselected.succeeds] at hselectedVersions
  exact ⟨hcandidate, hlatest, ⟨selected, hselected, Option.some.inj hselectedVersions⟩, hnone.succeeds⟩

/-- A project on the release after the latest one is told that its version is invalid: nothing is selected for
it, and its run does not end with nothing to do. -/
theorem newer_project_refused :
    let r := Registry.ofCalls [some ⟨"12.0.0", "", []⟩]
    let fs : FileSystem := ⟨[], 0, some [], false⟩
    let o : Options := ⟨[], [], [], false, { Settings.standard with fromVersion := "13.0.0" }⟩
    Version.ofString "13.0.0" = .ok ⟨13, 0, 0, []⟩ ∧ r.migrations.map (·.version) = [⟨12, 0, 0, []⟩] ∧
    (∀ m ∈ r.migrations, m.version.le ⟨13, 0, 0, []⟩ = true) ∧ (∀ selected, r.select "13.0.0" "" ≠ .ok selected) ∧
    ∃ e, run fs r false o = ⟨none, some (.fault e), fs, []⟩ ∧ e.isA .invalidVersion = true ∧
      e.isA .nothingToDo = false := by
  intro r fs o
  have hv : Version.ofString "13.0.0" = .ok ⟨13, 0, 0, []⟩ := rfl
  have hversions : r.migrations.map (·.version) = [⟨12, 0, 0, []⟩] := by decide
  have hlatest : r.latest? = some ⟨12, 0, 0, []⟩ := by decide
  have hselect : r.select "13.0.0" "" = .error (Registry.newerThanLatest ⟨13, 0, 0, []⟩ ⟨12, 0, 0, []⟩) := by
    rw [Registry.select_latest_eq hv, hlatest]
    rfl
  refine ⟨hv, hversions, ?_, ?_, _, run_of_select_error rfl rfl hv hselect false, ?_, ?_⟩
  · have hall : ∀ v ∈ r.migrations.map (·.version), v.le ⟨13, 0, 0, []⟩ = true := by
      rw [hversions]
      decide
    exact fun m hm => hall _ (List.mem_map_of_mem hm)
  · intro selected hok
    rw [hselect] at hok
    cases hok
  all_goals simp [Registry.newerThanLatest, Fault.isA, Fault.leaves]

end Run

end Codemod
