import Codemod.Proofs.Text.Scalars
import Codemod.Text.Lower

namespace Codemod.Text

theorem encode_ascii {b : UInt8} (h : b < 128) : String.utf8EncodeChar (Char.ofNat b.toNat) = [b] := by
  have hlt : b.toNat < 128 := h
  unfold String.utf8EncodeChar
  rw [val_ofNat (.inl (by omega))]
  dsimp only
  rw [if_pos (by omega), UInt8.ofNat_toNat]

/-- A byte of ASCII stands in the code of its own character only. -/
theorem mem_encode {b : UInt8} (h : b < 128) {c : Char} : b ∈ String.utf8EncodeChar c ↔ c = Char.ofNat b.toNat := by
  have hlt : b.toNat < 128 := h
  constructor
  · intro hmem
    have hhigh (n : Nat) (hn : 128 ≤ n % 256) : b ≠ UInt8.ofNat n := by
      rintro rfl
      rw [UInt8.toNat_ofNat'] at hlt
      omega
    unfold String.utf8EncodeChar at hmem
    dsimp only at hmem
    split at hmem
    · next hle =>
      rw [List.mem_singleton.mp hmem, UInt8.toNat_ofNat', Nat.mod_eq_of_lt (by omega)]
      exact (Char.ofNat_toNat c).symm
    · -- every byte of a longer code is above ASCII
      refine absurd hmem ?_
      split
      · simp only [List.mem_cons, List.not_mem_nil, or_false, not_or]
        exact ⟨hhigh _ (by omega), hhigh _ (by omega)⟩
      · split
        · simp only [List.mem_cons, List.not_mem_nil, or_false, not_or]
          exact ⟨hhigh _ (by omega), hhigh _ (by omega), hhigh _ (by omega)⟩
        · simp only [List.mem_cons, List.not_mem_nil, or_false, not_or]
          exact ⟨hhigh _ (by omega), hhigh _ (by omega), hhigh _ (by omega), hhigh _ (by omega)⟩
  · rintro rfl
    rw [encode_ascii h]
    exact List.mem_singleton_self b

theorem firstChar?_ascii {b : UInt8} (h : b < 128) (r : Bytes) : firstChar? (b :: r) = some (Char.ofNat b.toNat, 0) := if_pos h

theorem scalars_ascii {b : UInt8} (h : b < 128) (r : Bytes) : scalars (b :: r) = .inr (Char.ofNat b.toNat) :: scalars r := by
  rw [scalars, firstChar?_ascii h]
  rfl

theorem mem_iff_mem_scalars {b : UInt8} (h : b < 128) {s : Bytes} : b ∈ s ↔ .inr (Char.ofNat b.toNat) ∈ scalars s := by
  have hscalars : s = (scalars s).flatMap scalarBytes := (flatMap_scalars (fun _ => rfl) (fun _ => rfl) s).symm
  constructor
  · intro hmem
    fun_induction scalars s with
    | case1 => cases hmem
    | case2 a r c extra hfirst ih =>
      rw [← List.take_append_drop extra r, ← List.cons_append, ← encode_firstChar hfirst, List.mem_append, mem_encode h] at hmem
      obtain rfl | hmem := hmem
      · exact List.mem_cons_self ..
      · exact List.mem_cons_of_mem _ (ih (flatMap_scalars (fun _ => rfl) (fun _ => rfl) _).symm hmem)
    | case3 a r hfirst ih =>
      obtain rfl | hmem := List.mem_cons.mp hmem
      · rw [firstChar?_ascii h] at hfirst
        cases hfirst
      · exact List.mem_cons_of_mem _ (ih (flatMap_scalars (fun _ => rfl) (fun _ => rfl) _).symm hmem)
  · intro hmem
    rw [hscalars, List.mem_flatMap]
    exact ⟨_, hmem, (mem_encode h).mpr rfl⟩

/-- A scalar in small letters. -/
def smallBytes : UInt8 ⊕ Char → Bytes := Sum.elim (fun _ => String.utf8EncodeChar '\ufffd') fun c => String.utf8EncodeChar (lowerChar c)

/-- The small letter of a capital, which lies 32 places behind it. -/
theorem toNat_lowerLetter (b : UInt8) :
    (Bytes.lowerLetter b).toNat = if 65 ≤ b.toNat ∧ b.toNat ≤ 90 then b.toNat + 32 else b.toNat := by
  have hrange : (65 ≤ b && b ≤ 90) = true ↔ 65 ≤ b.toNat ∧ b.toNat ≤ 90 := by
    rw [Bool.and_eq_true, decide_eq_true_eq, decide_eq_true_eq, UInt8.le_iff_toNat_le, UInt8.le_iff_toNat_le]
    rfl
  unfold Bytes.lowerLetter
  simp only [hrange]
  split
  · next hletter =>
    have hstep : (32 : UInt8).toNat = 32 := rfl
    rw [UInt8.toNat_add, hstep]
    omega
  · rfl

theorem lowerChar_ascii {b : UInt8} (h : b < 128) : lowerChar (Char.ofNat b.toNat) = Char.ofNat (Bytes.lowerLetter b).toNat := by
  have hlt : b.toNat < 128 := h
  have hcode : (Char.ofNat b.toNat).toNat = b.toNat := val_ofNat (.inl (by omega))
  have hruns : capitalRuns = (0x41, 0x5a, 1, 32) :: capitalRuns.tail := rfl
  unfold lowerChar
  dsimp only
  rw [hcode, hruns]
  rw [toNat_lowerLetter]
  by_cases hletter : 65 ≤ b.toNat ∧ b.toNat ≤ 90
  · rw [List.find?_cons_of_pos (by simp [hletter, Nat.mod_one]), if_pos hletter]
    rfl
  · -- the other capitals lie above ASCII
    have habove : ∀ run ∈ capitalRuns.tail, 128 ≤ run.1 := by decide +kernel
    have hnone : (capitalRuns.tail.find? fun run =>
        run.1 ≤ b.toNat && b.toNat ≤ run.2.1 && (b.toNat - run.1) % run.2.2.1 == 0) = none := by
      refine List.find?_eq_none.mpr fun run hrun => ?_
      have hfirst := habove run hrun
      have hout : ¬run.1 ≤ b.toNat := by omega
      simp [hout]
    rw [List.find?_cons_of_neg (by simpa [Nat.mod_one] using hletter), hnone, if_neg hletter]

theorem smallBytes_ascii {b : UInt8} (h : b < 128) : smallBytes (.inr (Char.ofNat b.toNat)) = [Bytes.lowerLetter b] := by
  have hlower : Bytes.lowerLetter b < 128 := by
    have hlt : b.toNat < 128 := h
    show (Bytes.lowerLetter b).toNat < 128
    rw [toNat_lowerLetter]
    split <;> omega
  show String.utf8EncodeChar (lowerChar (Char.ofNat b.toNat)) = _
  rw [lowerChar_ascii h, encode_ascii hlower]

theorem lower_eq (s : Bytes) : lower s = (scalars s).flatMap smallBytes := by
  unfold lower
  split
  · next hascii =>
    rw [List.all_eq_true] at hascii
    induction s with
    | nil => rw [scalars]; rfl
    | cons b r ih =>
      obtain ⟨hb, hr⟩ := List.forall_mem_cons.mp hascii
      have hb : b < 128 := of_decide_eq_true hb
      rw [List.map_cons, scalars_ascii hb, List.flatMap_cons, smallBytes_ascii hb, ih hr]
      rfl
  · have hmissing : lowerChar '\ufffd' = '\ufffd' := by decide
    unfold bytes lowerString lossy
    rw [String.toList_ofList, String.toList_ofList, List.map_map, List.flatMap_map]
    congr 1
    funext x
    cases x with
    | inl b => exact congrArg String.utf8EncodeChar hmissing
    | inr c => rfl

theorem lower_append {s t : Bytes} (ht : Whole t) : lower (s ++ t) = lower s ++ lower t := by
  rw [lower_eq, lower_eq, lower_eq, scalars_append ht, List.flatMap_append]

theorem toNat_ofNat (n : Nat) : (Char.ofNat n).toNat = n ∨ (Char.ofNat n).toNat = 0 := by
  by_cases h : n.isValidChar
  · exact .inl (val_ofNat h)
  · rw [Char.ofNat, dif_neg h]
    exact .inr rfl

/-- The marks that part a path, which are no letters. -/
def pathMarks : List UInt8 := [46, 47]

theorem mem_pathMarks {b : UInt8} : b ∈ pathMarks ↔ b = 46 ∨ b = 47 := by simp [pathMarks]

theorem mark_ascii {b : UInt8} (hb : b ∈ pathMarks) : b < 128 := by
  obtain rfl | rfl := mem_pathMarks.mp hb <;> decide

theorem lowerChar_eq_mark {b : UInt8} (hb : b ∈ pathMarks) {c : Char} : lowerChar c = Char.ofNat b.toNat ↔ c = Char.ofNat b.toNat := by
  constructor
  · intro h
    unfold lowerChar at h
    dsimp only at h
    split at h
    · next first last step shift hfind =>
      -- no small letter of the table is as low as a mark
      have hfar : ∀ run ∈ capitalRuns, 47 < (run.1 : Int) + run.2.2.2 := by decide +kernel
      have hrun := hfar _ (List.mem_of_find?_eq_some hfind)
      have hlow := List.find?_some hfind
      simp only [Bool.and_eq_true, decide_eq_true_eq] at hrun hlow
      have hmark : (Char.ofNat b.toNat).toNat = 46 ∨ (Char.ofNat b.toNat).toNat = 47 := by
        obtain rfl | rfl := mem_pathMarks.mp hb
        · exact .inl rfl
        · exact .inr rfl
      rw [← h] at hmark
      have hfirst : (first : Int) ≤ c.toNat := Int.ofNat_le.mpr hlow.1.1
      obtain hcode | hcode := toNat_ofNat (c.toNat + shift : Int).toNat <;> omega
    · exact h
  · rintro rfl
    obtain rfl | rfl := mem_pathMarks.mp hb <;> rfl

theorem mem_smallBytes {b : UInt8} (hb : b ∈ pathMarks) {x : UInt8 ⊕ Char} : b ∈ smallBytes x ↔ x = .inr (Char.ofNat b.toNat) := by
  have hascii := mark_ascii hb
  cases x with
  | inl a =>
    have hmissing : b ∉ String.utf8EncodeChar '\ufffd' := by
      obtain rfl | rfl := mem_pathMarks.mp hb <;> decide
    exact ⟨fun h => absurd h hmissing, nofun⟩
  | inr c =>
    show b ∈ String.utf8EncodeChar (lowerChar c) ↔ _
    rw [mem_encode hascii, lowerChar_eq_mark hb, Sum.inr.injEq]

/-- Small letters leave the marks of a path where they are. -/
theorem mem_lower {b : UInt8} (hb : b ∈ pathMarks) {s : Bytes} : b ∈ lower s ↔ b ∈ s := by
  have hascii := mark_ascii hb
  rw [lower_eq, List.mem_flatMap, mem_iff_mem_scalars hascii]
  simp only [mem_smallBytes hb, exists_eq_right]

theorem lower_mark_cons {b : UInt8} (hb : b ∈ pathMarks) (s : Bytes) : lower (b :: s) = b :: lower s := by
  have hascii := mark_ascii hb
  have hlower : Bytes.lowerLetter b = b := by
    obtain rfl | rfl := mem_pathMarks.mp hb <;> rfl
  rw [lower_eq, lower_eq, scalars_ascii hascii, List.flatMap_cons, smallBytes_ascii hascii, hlower]
  rfl

theorem lower_append_mark {b : UInt8} (hb : b ∈ pathMarks) (s t : Bytes) : lower (s ++ b :: t) = lower s ++ b :: lower t := by
  have hwhole : Whole (b :: t) := by
    obtain rfl | rfl := mem_pathMarks.mp hb <;> rfl
  rw [lower_append hwhole, lower_mark_cons hb]

end Codemod.Text
