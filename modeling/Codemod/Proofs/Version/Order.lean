import Mathlib.Order.Compare
import Codemod.Version

namespace Codemod.Version

theorem compareChars_eq (s t : List Char) : compareChars s t = List.compareLex (compareOn Char.toNat) s t := by
  induction s generalizing t with
  | nil => cases t <;> rfl
  | cons a s ih =>
    cases t with
    | nil => rfl
    | cons b t =>
      rw [compareChars, List.compareLex_cons_cons, ih t]
      rfl

instance : Std.LawfulEqCmp (compareOn Char.toNat) where
  eq_of_compare {a b} h := by
    have hval : a.toNat = b.toNat := Std.LawfulEqOrd.eq_of_compare h
    exact Char.toNat_inj.mp hval

namespace ReleaseMark

theorem compare_swap (a b : ReleaseMark) : compare a b = (compare b a).swap := by
  cases a with
  | number m =>
    cases b with
    | number n => exact Std.OrientedOrd.eq_swap
    | word w => rfl
  | word s =>
    cases b with
    | number n => rfl
    | word t =>
      simp only [compare, compareChars_eq]
      exact Std.OrientedCmp.eq_swap

instance : Std.OrientedCmp compare where
  eq_swap := compare_swap _ _

/-- Numbers among themselves, words among themselves, and numbers before words. -/
instance : Std.TransCmp compare where
  isLE_trans {a b c} hab hbc := by
    cases a <;> cases b <;> cases c <;> simp only [compare, compareChars_eq] at *
    case number.number.number => exact Std.TransOrd.isLE_trans hab hbc
    case word.word.word => exact Std.TransCmp.isLE_trans hab hbc
    all_goals first | contradiction | rfl

instance : Std.LawfulEqCmp compare where
  compare_self {a} := by
    cases a with
    | number m => exact Std.ReflOrd.compare_self
    | word s =>
      simp only [compare, compareChars_eq]
      exact Std.ReflCmp.compare_self
  eq_of_compare {a b} h := by
    cases a with
    | number m =>
      cases b with
      | number n => exact congrArg ReleaseMark.number (Std.LawfulEqOrd.eq_of_compare h)
      | word t => cases h
    | word s =>
      cases b with
      | number n => cases h
      | word t =>
        simp only [compare, compareChars_eq] at h
        exact congrArg ReleaseMark.word (Std.LawfulEqCmp.eq_of_compare h)

end ReleaseMark

theorem comparePre_eq (s t : List ReleaseMark) : comparePre s t = List.compareLex ReleaseMark.compare s t := by
  induction s generalizing t with
  | nil => cases t <;> rfl
  | cons a s ih =>
    cases t with
    | nil => rfl
    | cons b t =>
      rw [comparePre, List.compareLex_cons_cons, ih t]

/-- The order of the marks of two versions with the same numbers: no mark comes last. -/
def comparePrerelease : List ReleaseMark → List ReleaseMark → Ordering :=
  compareLex (compareOn List.isEmpty) (List.compareLex ReleaseMark.compare)

instance : Std.TransCmp comparePrerelease :=
  inferInstanceAs (Std.TransCmp (compareLex (compareOn List.isEmpty) (List.compareLex ReleaseMark.compare)))

theorem compare_eq (a b : Version) : a.compare b =
    (Ord.compare a.major b.major).then ((Ord.compare a.minor b.minor).then
      ((Ord.compare a.patch b.patch).then (comparePrerelease a.pre b.pre))) := by
  obtain ⟨major, minor, patch, s⟩ := a
  obtain ⟨major', minor', patch', t⟩ := b
  unfold compare
  congr 3
  cases s with
  | nil => cases t <;> rfl
  | cons a s =>
    cases t with
    | nil => rfl
    | cons b t => exact comparePre_eq (a :: s) (b :: t)

theorem compare_lex : compare = compareLex (compareOn major) (compareLex (compareOn minor)
    (compareLex (compareOn patch) fun a b => comparePrerelease a.pre b.pre)) := by
  funext a b
  exact compare_eq a b

instance : Std.TransCmp fun a b : Version => comparePrerelease a.pre b.pre where
  eq_swap {a b} := by
    have h : comparePrerelease a.pre b.pre = (comparePrerelease b.pre a.pre).swap := Std.OrientedCmp.eq_swap
    exact h
  isLE_trans {a b c} hab hbc := by
    have h : (comparePrerelease a.pre c.pre).isLE = true := Std.TransCmp.isLE_trans hab hbc
    exact h

/-- The order of precedence is a total order. -/
instance : Std.TransCmp compare := by
  rw [compare_lex]
  infer_instance

/-- Versions of the same precedence are the same. -/
instance : Std.LawfulEqCmp compare where
  eq_of_compare {a b} h := by
    rw [compare_eq, Ordering.then_eq_eq, Ordering.then_eq_eq, Ordering.then_eq_eq] at h
    obtain ⟨hmajor, hminor, hpatch, hpre⟩ := h
    have hmarks : List.compareLex ReleaseMark.compare a.pre b.pre = .eq := (Ordering.then_eq_eq.mp hpre).2
    obtain ⟨major, minor, patch, s⟩ := a
    obtain ⟨major', minor', patch', t⟩ := b
    congr 1
    · exact Std.LawfulEqOrd.eq_of_compare hmajor
    · exact Std.LawfulEqOrd.eq_of_compare hminor
    · exact Std.LawfulEqOrd.eq_of_compare hpatch
    · exact Std.LawfulEqCmp.eq_of_compare hmarks

variable {a b c : Version}

theorem compare_self (a : Version) : a.compare a = .eq := Std.ReflCmp.compare_self

theorem compare_swap (a b : Version) : (b.compare a) = (a.compare b).swap := Std.OrientedCmp.eq_swap

theorem gt_iff_lt : a.compare b = .gt ↔ b.compare a = .lt := by
  rw [compare_swap a b]
  cases a.compare b <;> simp

theorem le_iff : a.le b = true ↔ a.compare b ≠ .gt := by
  unfold le
  cases a.compare b <;> simp

theorem le_of_lt (h : a.compare b = .lt) : a.le b = true := by simp [le, h]

theorem not_le : ¬a.le b = true ↔ b.compare a = .lt := by
  rw [le_iff, not_not, gt_iff_lt]

theorem lt_or_eq_of_le (h : a.le b = true) : a.compare b = .lt ∨ a = b := by
  rw [le_iff] at h
  cases hab : a.compare b with
  | lt => exact .inl rfl
  | eq => exact .inr (Std.LawfulEqCmp.eq_of_compare hab)
  | gt => exact absurd hab h

theorem lt_trans (hab : a.compare b = .lt) (hbc : b.compare c = .lt) : a.compare c = .lt :=
  Std.TransCmp.lt_trans hab hbc

theorem lt_of_le_of_lt (hab : a.le b = true) (hbc : b.compare c = .lt) : a.compare c = .lt :=
  Std.TransCmp.lt_of_isLE_of_lt hab hbc

theorem le_trans (hab : a.le b = true) (hbc : b.le c = true) : a.le c = true :=
  Std.TransCmp.isLE_trans hab hbc

end Codemod.Version
