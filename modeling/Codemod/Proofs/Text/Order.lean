import Codemod.Text.Bytes

namespace Codemod.Bytes

theorem le_total (s t : Bytes) : s.le t || t.le s := by
  induction s generalizing t with
  | nil => simp [le]
  | cons a s ih =>
    cases t with
    | nil => simp [le]
    | cons b t =>
      rw [le, le]
      by_cases hab : a = b
      · rw [if_pos hab, if_pos hab.symm]
        exact ih t
      · rw [if_neg hab, if_neg (Ne.symm hab)]
        simpa using UInt8.lt_or_lt_of_ne hab

theorem le_trans (s t u : Bytes) (hst : s.le t) (htu : t.le u) : s.le u := by
  induction s generalizing t u with
  | nil => rfl
  | cons a s ih =>
    cases t with
    | nil => cases hst
    | cons b t =>
      cases u with
      | nil => cases htu
      | cons c u =>
        rw [le] at hst htu ⊢
        by_cases hab : a = b
        · subst hab
          rw [if_pos rfl] at hst
          by_cases hac : a = c
          · rw [if_pos hac] at htu ⊢
            exact ih t u hst htu
          · rw [if_neg hac] at htu ⊢
            exact htu
        · rw [if_neg hab, decide_eq_true_eq] at hst
          by_cases hbc : b = c
          · subst hbc
            rw [if_neg hab]
            exact decide_eq_true hst
          · rw [if_neg hbc, decide_eq_true_eq] at htu
            have hac : a < c := UInt8.lt_trans hst htu
            rw [if_neg (UInt8.ne_of_lt hac)]
            exact decide_eq_true hac

theorem le_antisymm {s t : Bytes} (hst : s.le t) (hts : t.le s) : s = t := by
  induction s generalizing t with
  | nil =>
    cases t with
    | nil => rfl
    | cons b t => cases hts
  | cons a s ih =>
    cases t with
    | nil => cases hst
    | cons b t =>
      rw [le] at hst hts
      by_cases hab : a = b
      · subst hab
        rw [if_pos rfl] at hst hts
        rw [ih hst hts]
      · rw [if_neg hab, decide_eq_true_eq] at hst
        rw [if_neg (Ne.symm hab), decide_eq_true_eq] at hts
        exact absurd hts (UInt8.not_lt.mpr (UInt8.le_of_lt hst))

theorem sort_perm (texts : List Bytes) : (sort texts).Perm texts := List.mergeSort_perm ..

/-- The same texts are sorted alike. -/
theorem sort_congr {texts texts' : List Bytes} (h : texts.Perm texts') : sort texts = sort texts' := by
  refine List.Perm.eq_of_pairwise (fun s t _ _ hst hts => le_antisymm hst hts)
    (List.pairwise_mergeSort le_trans le_total texts) (List.pairwise_mergeSort le_trans le_total texts') ?_
  exact (sort_perm texts).trans (h.trans (sort_perm texts').symm)

/-- One text stands before another in ascending order. -/
def Before (s t : Bytes) : Prop := s.le t ∧ s ≠ t

/-- Different texts ascend when they are sorted. -/
theorem sort_ascending {texts : List Bytes} (h : texts.Nodup) : (sort texts).Pairwise Before :=
  (List.pairwise_mergeSort le_trans le_total texts).and ((sort_perm texts).nodup_iff.mpr h)

/-- Different keys ascend when what has them is sorted by them. -/
theorem mergeSort_ascending {α : Type} {key : α → Bytes} {l : List α} (h : (l.map key).Nodup) :
    ((l.mergeSort fun a b => (key a).le (key b)).map key).Pairwise Before := by
  have hsorted : ((l.mergeSort fun a b => (key a).le (key b)).map key).Pairwise fun s t => s.le t = true := by
    rw [List.pairwise_map]
    exact List.pairwise_mergeSort (fun a b c => le_trans (key a) (key b) (key c)) (fun a b => le_total (key a) (key b)) l
  have hperm := (List.mergeSort_perm l fun a b => (key a).le (key b)).map key
  exact hsorted.and (hperm.nodup_iff.mpr h)

end Codemod.Bytes
