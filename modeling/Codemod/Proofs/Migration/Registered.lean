import Codemod.Migration.Registry
import Codemod.Proofs.Version.Canonical
import Codemod.Proofs.Version.Order
import Mathlib.Data.List.Nodup

namespace Codemod.Migration

/-- The first migration leads to a version of lower precedence. -/
def Precedes (m n : Migration) : Prop := m.version.compare n.version = .lt

namespace Registry

section Insert

variable (m : Migration)

theorem insertSorted_perm (l : List Migration) : (insertSorted m l).Perm (m :: l) := by
  induction l with
  | nil => exact .rfl
  | cons n l ih =>
    rw [insertSorted]
    split
    · exact (ih.cons n).trans (.swap m n l)
    · exact .rfl

theorem insertSorted_ascending {l : List Migration} (hl : l.Pairwise Precedes)
    (hfresh : ∀ n ∈ l, n.version ≠ m.version) : (insertSorted m l).Pairwise Precedes := by
  induction l with
  | nil => exact List.pairwise_singleton _ _
  | cons n l ih =>
    obtain ⟨hn, hl'⟩ := List.pairwise_cons.mp hl
    rw [insertSorted]
    split
    · next hle =>
      refine List.pairwise_cons.mpr ⟨?_, ih hl' fun k hk => hfresh k (List.mem_cons_of_mem _ hk)⟩
      intro k hk
      obtain rfl | hk := List.mem_cons.mp ((insertSorted_perm m l).mem_iff.mp hk)
      · exact (Version.lt_or_eq_of_le hle).resolve_right (hfresh n (List.mem_cons_self ..))
      · exact hn k hk
    · next hle =>
      have hm : Precedes m n := Version.not_le.mp hle
      refine List.pairwise_cons.mpr ⟨?_, hl⟩
      intro k hk
      obtain rfl | hk := List.mem_cons.mp hk
      · exact hm
      · exact Version.lt_trans hm (hn k hk)

end Insert

theorem clash?_eq_none_iff (version : Version) (taken : List (String × Version)) (ids : List String) :
    clash? version taken ids = none ↔ ids.Nodup ∧ ∀ id ∈ ids, id ∉ taken.map Prod.fst := by
  induction ids generalizing taken with
  | nil => simp [clash?]
  | cons id ids ih =>
    rw [clash?]
    cases hlookup : taken.lookup id with
    | some owner =>
      have htaken : id ∈ taken.map Prod.fst := by
        by_contra hnot
        have hnone : taken.lookup id = none := by
          rw [List.lookup_eq_none_iff]
          intro p hp
          rw [bne_iff_ne]
          rintro rfl
          exact hnot (List.mem_map_of_mem hp)
        rw [hnone] at hlookup
        cases hlookup
      constructor
      · intro h
        cases h
      · rintro ⟨-, h⟩
        exact absurd htaken (h id (List.mem_cons_self ..))
    | none =>
      have hfree : id ∉ taken.map Prod.fst := by
        intro hmem
        obtain ⟨p, hp, rfl⟩ := List.mem_map.mp hmem
        exact bne_iff_ne.mp (List.lookup_eq_none_iff.mp hlookup p hp) rfl
      dsimp only
      rw [ih, List.nodup_cons, List.map_cons]
      constructor
      · rintro ⟨hnodup, h⟩
        refine ⟨⟨fun hmem => h id hmem (List.mem_cons_self ..), hnodup⟩, ?_⟩
        intro later hlater
        obtain rfl | hlater := List.mem_cons.mp hlater
        · exact hfree
        · exact fun hmem => h later hlater (List.mem_cons_of_mem _ hmem)
      · rintro ⟨⟨hnot, hnodup⟩, h⟩
        refine ⟨hnodup, fun later hlater hmem => ?_⟩
        obtain rfl | hmem := List.mem_cons.mp hmem
        · exact hnot hlater
        · exact h later (List.mem_cons_of_mem _ hlater) hmem

theorem takenIds_ids (r : Registry) : r.takenIds.map Prod.fst = r.migrations.flatMap Migration.stageIds := by
  simp [takenIds, List.map_flatMap, Function.comp_def]

/-- A migration that a registry takes: nothing of it is registered already. -/
structure Fresh (r : Registry) (m : Migration) : Prop where
  version : ∀ n ∈ r.migrations, n.version ≠ m.version
  ids : m.stageIds.Nodup
  apart : ∀ id ∈ m.stageIds, id ∉ r.migrations.flatMap Migration.stageIds

/-- All that a successful call does. -/
theorem register_eq_ok_iff {r r' : Registry} {draft : Option Draft} : r.register draft = .ok r' ↔
    ∃ d m, draft = some d ∧ d.check = .ok m ∧ r.Fresh m ∧ r' = ⟨insertSorted m r.migrations⟩ := by
  constructor
  · intro h
    unfold register at h
    split at h
    · cases h
    · next d =>
      split at h
      · cases h
      · next m hcheck =>
        split at h
        · cases h
        · next hversion =>
          split at h
          · cases h
          · next hclash =>
            cases h
            obtain ⟨hids, hapart⟩ := (clash?_eq_none_iff _ _ _).mp hclash
            rw [takenIds_ids] at hapart
            exact ⟨d, m, rfl, hcheck, ⟨by simpa using hversion, hids, hapart⟩, rfl⟩
  · rintro ⟨d, m, rfl, hcheck, hfresh, rfl⟩
    have hversion : (r.migrations.any (·.version = m.version)) = false := by simpa using hfresh.version
    have hclash : clash? m.version r.takenIds m.stageIds = none := by
      rw [clash?_eq_none_iff, takenIds_ids]
      exact ⟨hfresh.ids, hfresh.apart⟩
    unfold register
    simp only [hcheck, hversion, hclash, Bool.false_eq_true, if_false]

theorem canonical_of_check {d : Draft} {m : Migration} (h : d.check = .ok m) : m.version.Canonical := by
  unfold Draft.check at h
  cases hversion : Version.ofString d.version with
  | error e =>
    rw [hversion] at h
    cases h
  | ok v =>
    rw [hversion] at h
    cases h
    exact Version.canonical_of_ofString hversion

/-- The registry after a call. A call that fails leaves it as it was. -/
def after (r : Registry) (draft : Option Draft) : Registry :=
  match r.register draft with
  | .ok r' => r'
  | .error _ => r

/-- The registry that some calls build. -/
def ofCalls (calls : List (Option Draft)) : Registry := calls.foldl after empty

/-- What holds of every registry. -/
structure Sound (r : Registry) : Prop where
  canonical : ∀ m ∈ r.migrations, m.version.Canonical
  ascending : r.migrations.Pairwise Precedes
  unique : (r.migrations.flatMap Migration.stageIds).Nodup

namespace Sound

theorem empty : Sound empty := ⟨nofun, .nil, .nil⟩

variable {r r' : Registry} (h : r.Sound)

include h

theorem register {draft : Option Draft} (hr : r.register draft = .ok r') : r'.Sound := by
  obtain ⟨d, m, -, hcheck, hfresh, rfl⟩ := register_eq_ok_iff.mp hr
  have hperm := insertSorted_perm m r.migrations
  refine ⟨?_, insertSorted_ascending m h.ascending hfresh.version, ?_⟩
  · intro n hn
    obtain rfl | hn := List.mem_cons.mp (hperm.mem_iff.mp hn)
    · exact canonical_of_check hcheck
    · exact h.canonical n hn
  · rw [(hperm.flatMap_right Migration.stageIds).nodup_iff, List.flatMap_cons, List.nodup_append']
    exact ⟨hfresh.ids, h.unique, fun id hid => hfresh.apart id hid⟩

theorem after (draft : Option Draft) : (r.after draft).Sound := by
  unfold Registry.after
  split
  · next hr => exact h.register hr
  · exact h

/-- Canonical versions differ in their texts. -/
theorem texts_nodup : (r.migrations.map (·.version.toText)).Nodup := by
  rw [List.Nodup, List.pairwise_map]
  apply h.ascending.imp_of_mem
  intro m n hm hn hlt htext
  have heq := (h.canonical m hm).eq_of_toText (h.canonical n hn) htext
  rw [Precedes, heq, Version.compare_self] at hlt
  cases hlt

end Sound

theorem sound_ofCalls (calls : List (Option Draft)) : (ofCalls calls).Sound := by
  have hrun (r : Registry) (hr : r.Sound) : (calls.foldl after r).Sound := by
    induction calls generalizing r with
    | nil => exact hr
    | cons draft calls ih => exact ih _ (hr.after draft)
  exact hrun empty .empty

section Select

variable {r : Registry} {source target : String} {va vb vc : Version}

theorem ne_empty_of_ofString (h : Version.ofString target = .ok vb) : target.isEmpty = false := by
  rw [Bool.eq_false_iff]
  intro hempty
  rw [String.isEmpty_iff.mp hempty] at h
  cases h

theorem select_eq (ha : Version.ofString source = .ok va) (hb : Version.ofString target = .ok vb) (hle : va.le vb) :
    r.select source target = .ok (r.migrations.filter fun m => m.version.compare va = .gt && m.version.le vb) := by
  have hgt : ¬va.compare vb = .gt := Version.le_iff.mp hle
  unfold select
  rw [ha, hb, ne_empty_of_ofString hb]
  simp only [Except.mapError, Except.map, bind, Except.bind, Bool.false_eq_true, if_false, hgt]

/-- What selecting between two versions gives: the registered migrations above the first and up to the
second, ascending. -/
structure Selects (r : Registry) (source target : String) (va vb : Version) (selected : List Migration) : Prop where
  succeeds : r.select source target = .ok selected
  member : ∀ m, m ∈ selected ↔ m ∈ r.migrations ∧ va.compare m.version = .lt ∧ m.version.le vb = true
  ascending : selected.Pairwise Precedes

theorem Sound.selects (h : r.Sound) (ha : Version.ofString source = .ok va) (hb : Version.ofString target = .ok vb)
    (hle : va.le vb = true) : ∃ selected, r.Selects source target va vb selected := by
  refine ⟨_, select_eq ha hb hle, fun m => ?_, h.ascending.filter _⟩
  rw [List.mem_filter, Bool.and_eq_true, decide_eq_true_eq, Version.gt_iff_lt]

/-- An ascending list is known by its members. -/
theorem eq_of_ascending {l l' : List Migration} (hl : l.Pairwise Precedes) (hl' : l'.Pairwise Precedes)
    (h : ∀ m, m ∈ l ↔ m ∈ l') : l = l' := by
  have hirrefl (m : Migration) : ¬m.Precedes m := by
    rw [Precedes, Version.compare_self]
    exact nofun
  have hnodup {l : List Migration} (hl : l.Pairwise Precedes) : l.Nodup := by
    apply hl.imp
    rintro m n hmn rfl
    exact hirrefl m hmn
  have hperm : l.Perm l' := (List.perm_ext_iff_of_nodup (hnodup hl) (hnodup hl')).mpr h
  apply hperm.eq_of_pairwise _ hl hl'
  intro m n _ _ hmn hnm
  exact absurd (Version.lt_trans hmn hnm) (hirrefl m)

/-- A selection in two steps is the selection in one. -/
theorem selects_append {middle : String} {low high : List Migration} (hab : va.le vb = true) (hbc : vb.le vc = true)
    (hlow : r.Selects source middle va vb low) (hhigh : r.Selects middle target vb vc high) :
    (∀ m, m ∈ low ++ high ↔ m ∈ r.migrations ∧ va.compare m.version = .lt ∧ m.version.le vc = true) ∧
      (low ++ high).Pairwise Precedes := by
  constructor
  · intro m
    rw [List.mem_append, hlow.member, hhigh.member]
    constructor
    · rintro (⟨hm, habove, hbelow⟩ | ⟨hm, habove, hbelow⟩)
      · exact ⟨hm, habove, Version.le_trans hbelow hbc⟩
      · exact ⟨hm, Version.lt_of_le_of_lt hab habove, hbelow⟩
    · rintro ⟨hm, habove, hbelow⟩
      by_cases hmiddle : m.version.le vb = true
      · exact .inl ⟨hm, habove, hmiddle⟩
      · exact .inr ⟨hm, Version.not_le.mp hmiddle, hbelow⟩
  · refine List.pairwise_append.mpr ⟨hlow.ascending, hhigh.ascending, ?_⟩
    intro m hm n hn
    exact Version.lt_of_le_of_lt ((hlow.member m).mp hm).2.2 ((hhigh.member n).mp hn).2.1

end Select

/-- Whatever calls have built a registry: its versions are canonical and different, its stages are different, a
failing call changes nothing, and selections are ranges that join. -/
theorem registered_of_calls (calls : List (Option Draft)) :
    (ofCalls calls).Sound ∧ ((ofCalls calls).migrations.map (·.version.toText)).Nodup ∧
      (∀ draft e, (ofCalls calls).register draft = .error e → ofCalls (calls ++ [draft]) = ofCalls calls) ∧
      (∀ draft r, (ofCalls calls).register draft = .ok r → ofCalls (calls ++ [draft]) = r ∧
        ∃ d m, draft = some d ∧ d.check = .ok m ∧ r.migrations.Perm (m :: (ofCalls calls).migrations)) ∧
      ∀ a b c va vb vc, Version.ofString a = .ok va → Version.ofString b = .ok vb → Version.ofString c = .ok vc →
        va.le vb = true → vb.le vc = true → ∃ low high, (ofCalls calls).Selects a b va vb low ∧
          (ofCalls calls).Selects b c vb vc high ∧ (ofCalls calls).Selects a c va vc (low ++ high) := by
  have hsound := sound_ofCalls calls
  have hlast (draft : Option Draft) : ofCalls (calls ++ [draft]) = (ofCalls calls).after draft := List.foldl_concat ..
  refine ⟨hsound, hsound.texts_nodup, ?_, ?_, ?_⟩
  · intro draft e he
    rw [hlast, after, he]
  · intro draft r hr
    obtain ⟨d, m, hdraft, hcheck, -, rfl⟩ := register_eq_ok_iff.mp hr
    refine ⟨?_, d, m, hdraft, hcheck, insertSorted_perm m _⟩
    rw [hlast, after, hr]
  · intro a b c va vb vc ha hb hc hab hbc
    obtain ⟨low, hlow⟩ := hsound.selects ha hb hab
    obtain ⟨high, hhigh⟩ := hsound.selects hb hc hbc
    obtain ⟨whole, hwhole⟩ := hsound.selects ha hc (Version.le_trans hab hbc)
    obtain ⟨hmember, hascending⟩ := selects_append hab hbc hlow hhigh
    have hjoin : whole = low ++ high := by
      apply eq_of_ascending hwhole.ascending hascending
      intro m
      rw [hwhole.member, hmember]
    exact ⟨low, high, hlow, hhigh, hjoin ▸ hwhole⟩

/-- A release candidate stands between releases; a version that is there already, a stage that is there already
and no migration at all are refused. -/
theorem registered_of_calls_candidate :
    let stage (id : String) : Stage := ⟨.pure id "" "" .template fun _ => [], ""⟩
    let calls : List (Option Draft) := [some ⟨"12", "", [stage "a"]⟩, some ⟨" v11.1 ", "", [stage "b"]⟩,
      some ⟨"12.0.0-rc.1", "", [stage "c"]⟩, some ⟨"12.0.0+build", "", []⟩, some ⟨"13", "", [stage "a"]⟩, none]
    let candidate : Version := ⟨12, 0, 0, [.word ['r', 'c'], .number 1]⟩
    (Version.ofString "11" = .ok ⟨11, 0, 0, []⟩ ∧ Version.ofString "12.0.0-rc.1" = .ok candidate ∧
      Version.ofString "v12.0.0" = .ok ⟨12, 0, 0, []⟩) ∧
    (ofCalls calls).migrations.map (·.version) = [⟨11, 1, 0, []⟩, candidate, ⟨12, 0, 0, []⟩] ∧
    ∃ low high, (ofCalls calls).select "11" "12.0.0-rc.1" = .ok low ∧
      (ofCalls calls).select "12.0.0-rc.1" "v12.0.0" = .ok high ∧
      (ofCalls calls).select "11" "v12.0.0" = .ok (low ++ high) ∧
      low.map (·.version) = [⟨11, 1, 0, []⟩, candidate] ∧ high.map (·.version) = [⟨12, 0, 0, []⟩] := by
  intro stage calls candidate
  have ha : Version.ofString "11" = .ok ⟨11, 0, 0, []⟩ := rfl
  have hb : Version.ofString "12.0.0-rc.1" = .ok candidate := rfl
  have hc : Version.ofString "v12.0.0" = .ok ⟨12, 0, 0, []⟩ := rfl
  obtain ⟨-, -, -, -, hselect⟩ := registered_of_calls calls
  obtain ⟨low, high, hlow, hhigh, hwhole⟩ := hselect _ _ _ _ _ _ ha hb hc (by decide) (by decide)
  have hregistry : (ofCalls calls).migrations.map (·.version) = [⟨11, 1, 0, []⟩, candidate, ⟨12, 0, 0, []⟩] := by
    decide +kernel
  have hlowVersions : ((ofCalls calls).select "11" "12.0.0-rc.1").toOption.map (List.map (·.version)) =
      some [⟨11, 1, 0, []⟩, candidate] := by decide +kernel
  have hhighVersions : ((ofCalls calls).select "12.0.0-rc.1" "v12.0.0").toOption.map (List.map (·.version)) =
      some [⟨12, 0, 0, []⟩] := by decide +kernel
  rw [hlow.succeeds] at hlowVersions
  rw [hhigh.succeeds] at hhighVersions
  exact ⟨⟨ha, hb, hc⟩, hregistry, low, high, hlow.succeeds, hhigh.succeeds, hwhole.succeeds,
    Option.some.inj hlowVersions, Option.some.inj hhighVersions⟩

end Registry

end Codemod.Migration
