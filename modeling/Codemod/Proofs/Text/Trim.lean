import Codemod.Text.Blank
import Mathlib.Data.List.DropRight
import Mathlib.Data.List.TakeWhile

namespace Codemod.Text

/-- The bytes of a character behind its first are no brackets. -/
theorem mem_drop_of_firstChar? {a : UInt8} {r : Bytes} {c : Char} {extra : Nat}
    (h : firstChar? (a :: r) = some (c, extra)) (hr : 60 ∈ r) : 60 ∈ r.drop extra := by
  unfold firstChar? at h
  dsimp only at h
  split at h
  · cases h
    exact hr
  · split at h
    · rcases r with _ | ⟨b, r⟩
      · cases hr
      · obtain ⟨x, hx, h⟩ := Option.bind_eq_some_iff.mp h
        cases h
        refine (List.mem_cons.mp hr).resolve_left ?_
        rintro rfl
        have hnone : none = some x := hx
        cases hnone
    · split at h
      · rcases r with _ | ⟨b, _ | ⟨d, r⟩⟩
        · cases hr
        · cases h
        · obtain ⟨x, hx, h⟩ := Option.bind_eq_some_iff.mp h
          obtain ⟨y, hy, h⟩ := Option.bind_eq_some_iff.mp h
          cases h
          refine (List.mem_cons.mp ((List.mem_cons.mp hr).resolve_left ?_)).resolve_left ?_
          · rintro rfl
            have hnone : none = some x := by
              rw [← hx]
              split <;> split <;> rfl
            cases hnone
          · rintro rfl
            have hnone : none = some y := hy
            cases hnone
      · split at h
        · rcases r with _ | ⟨b, _ | ⟨d, _ | ⟨e, r⟩⟩⟩
          · cases hr
          · cases h
          · cases h
          · obtain ⟨x, hx, h⟩ := Option.bind_eq_some_iff.mp h
            obtain ⟨y, hy, h⟩ := Option.bind_eq_some_iff.mp h
            obtain ⟨z, hz, h⟩ := Option.bind_eq_some_iff.mp h
            cases h
            refine (List.mem_cons.mp ((List.mem_cons.mp ((List.mem_cons.mp hr).resolve_left ?_)).resolve_left
              ?_)).resolve_left ?_
            · rintro rfl
              have hnone : none = some x := by
                rw [← hx]
                split <;> split <;> rfl
              cases hnone
            · rintro rfl
              have hnone : none = some y := hy
              cases hnone
            · rintro rfl
              have hnone : none = some z := hz
              cases hnone
        · cases h

theorem mem_scalars {s : Bytes} (h : 60 ∈ s) : .inr '<' ∈ scalars s := by
  fun_induction scalars s with
  | case1 => cases h
  | case2 a r c extra hfirst ih =>
    rcases List.mem_cons.mp h with rfl | h
    · have hc : firstChar? (60 :: r) = some ('<', 0) := rfl
      cases hfirst.symm.trans hc
      exact List.mem_cons_self ..
    · exact List.mem_cons_of_mem _ (ih (mem_drop_of_firstChar? hfirst h))
  | case3 a r hfirst ih =>
    rcases List.mem_cons.mp h with rfl | h
    · cases hfirst
    · exact List.mem_cons_of_mem _ (ih h)

/-- Only the blanks at the ends of a list are dropped. -/
theorem all_of_trim_eq_nil {α : Type} {p : α → Bool} {encode : α → Bytes} (hencode : ∀ x, encode x ≠ []) {l : List α}
    (h : ((l.dropWhile p).reverse.dropWhile p).reverse.flatMap encode = []) : ∀ x ∈ l, p x = true := by
  have hnil : (l.dropWhile p).reverse.dropWhile p = [] := by
    rw [← List.reverse_eq_nil_iff, List.eq_nil_iff_forall_not_mem]
    exact fun x hx => hencode x (List.flatMap_eq_nil_iff.mp h x hx)
  have hback := List.dropWhile_eq_nil_iff.mp hnil
  have hfront : l.dropWhile p = [] := by
    by_contra hne
    have hhead := List.head_dropWhile_not p hne
    rw [hback _ (List.mem_reverse.mpr (List.head_mem hne))] at hhead
    cases hhead
  exact List.dropWhile_eq_nil_iff.mp hfront

theorem not_mem_of_trimBytes_eq_nil {s : Bytes} (h : trimBytes s = []) : 60 ∉ s := by
  intro hmem
  have hall := all_of_trim_eq_nil (fun x => ?_) h
  · have := hall _ (mem_scalars hmem)
    cases this
  · cases x with
    | inl b => exact List.cons_ne_nil _ _
    | inr c =>
      intro hnil
      have : String.utf8EncodeChar c = [] := hnil
      simp at this

theorem val_ofNat {n : Nat} (h : n.isValidChar) : (Char.ofNat n).val.toNat = n := by
  rw [Char.ofNat, dif_pos h]
  rfl

/-- A continuation byte whose six bits are read. -/
theorem bounds_of_tail {low high b : UInt8} {x : Nat}
    (h : (if low ≤ b && b ≤ high then some (b.toNat % 64) else none) = some x) :
    (low.toNat ≤ b.toNat ∧ b.toNat ≤ high.toNat) ∧ b.toNat % 64 = x := by
  split at h
  · next hb =>
    rw [Bool.and_eq_true, decide_eq_true_eq, decide_eq_true_eq] at hb
    exact ⟨hb, Option.some.inj h⟩
  · cases h

theorem encode_two {a b : UInt8} (ha : 0xC2 ≤ a.toNat ∧ a.toNat ≤ 0xDF) (hb : 0x80 ≤ b.toNat ∧ b.toNat ≤ 0xBF) :
    String.utf8EncodeChar (Char.ofNat (a.toNat % 32 * 64 + b.toNat % 64)) = [a, b] := by
  have hvalid : (a.toNat % 32 * 64 + b.toNat % 64).isValidChar := .inl (by omega)
  unfold String.utf8EncodeChar
  rw [val_ofNat hvalid]
  dsimp only
  rw [if_neg (by omega), if_pos (by omega)]
  have h1 : (a.toNat % 32 * 64 + b.toNat % 64) / 64 % 32 + 192 = a.toNat := by omega
  have h2 : (a.toNat % 32 * 64 + b.toNat % 64) % 64 + 128 = b.toNat := by omega
  rw [h1, h2, UInt8.ofNat_toNat, UInt8.ofNat_toNat]

theorem encode_three {a b d : UInt8} (ha : 0xE0 ≤ a.toNat ∧ a.toNat ≤ 0xEF) (hb : 0x80 ≤ b.toNat ∧ b.toNat ≤ 0xBF)
    (hlong : a.toNat = 0xE0 → 0xA0 ≤ b.toNat) (hvalid : a.toNat = 0xED → b.toNat ≤ 0x9F)
    (hd : 0x80 ≤ d.toNat ∧ d.toNat ≤ 0xBF) :
    String.utf8EncodeChar (Char.ofNat (a.toNat % 16 * 4096 + b.toNat % 64 * 64 + d.toNat % 64)) = [a, b, d] := by
  generalize hn : a.toNat % 16 * 4096 + b.toNat % 64 * 64 + d.toNat % 64 = n
  have hchar : n.isValidChar := by
    unfold Nat.isValidChar
    omega
  unfold String.utf8EncodeChar
  rw [val_ofNat hchar]
  dsimp only
  rw [if_neg (by omega), if_neg (by omega), if_pos (by omega)]
  have h1 : n / 4096 % 16 + 224 = a.toNat := by omega
  have h2 : n / 64 % 64 + 128 = b.toNat := by omega
  have h3 : n % 64 + 128 = d.toNat := by omega
  rw [h1, h2, h3, UInt8.ofNat_toNat, UInt8.ofNat_toNat, UInt8.ofNat_toNat]

theorem encode_four {a b d e : UInt8} (ha : 0xF0 ≤ a.toNat ∧ a.toNat ≤ 0xF4) (hb : 0x80 ≤ b.toNat ∧ b.toNat ≤ 0xBF)
    (hlong : a.toNat = 0xF0 → 0x90 ≤ b.toNat) (hvalid : a.toNat = 0xF4 → b.toNat ≤ 0x8F)
    (hd : 0x80 ≤ d.toNat ∧ d.toNat ≤ 0xBF) (he : 0x80 ≤ e.toNat ∧ e.toNat ≤ 0xBF) :
    String.utf8EncodeChar (Char.ofNat (a.toNat % 8 * 262144 + b.toNat % 64 * 4096 + d.toNat % 64 * 64 + e.toNat % 64)) =
      [a, b, d, e] := by
  generalize hn : a.toNat % 8 * 262144 + b.toNat % 64 * 4096 + d.toNat % 64 * 64 + e.toNat % 64 = n
  have hchar : n.isValidChar := by
    unfold Nat.isValidChar
    omega
  unfold String.utf8EncodeChar
  rw [val_ofNat hchar]
  dsimp only
  rw [if_neg (by omega), if_neg (by omega), if_neg (by omega)]
  have h1 : n / 262144 % 8 + 240 = a.toNat := by omega
  have h2 : n / 4096 % 64 + 128 = b.toNat := by omega
  have h3 : n / 64 % 64 + 128 = d.toNat := by omega
  have h4 : n % 64 + 128 = e.toNat := by omega
  rw [h1, h2, h3, h4, UInt8.ofNat_toNat, UInt8.ofNat_toNat, UInt8.ofNat_toNat, UInt8.ofNat_toNat]

/-- A range of bytes as one of numbers. -/
theorem toNat_of_range {low a high : UInt8} (h : (decide (low ≤ a) && decide (a ≤ high)) = true) :
    low.toNat ≤ a.toNat ∧ a.toNat ≤ high.toNat := by
  rwa [Bool.and_eq_true, decide_eq_true_eq, decide_eq_true_eq] at h

theorem le_of_lower {a k low low' b : UInt8} (hle : low ≤ low') (h : (if a = k then low' else low).toNat ≤ b.toNat) :
    low.toNat ≤ b.toNat ∧ (a.toNat = k.toNat → low'.toNat ≤ b.toNat) := by
  split at h
  · exact ⟨Nat.le_trans hle h, fun _ => h⟩
  · next hne => exact ⟨h, fun heq => absurd (UInt8.toNat_inj.mp heq) hne⟩

theorem le_of_upper {a k high high' b : UInt8} (hle : high' ≤ high) (h : b.toNat ≤ (if a = k then high' else high).toNat) :
    b.toNat ≤ high.toNat ∧ (a.toNat = k.toNat → b.toNat ≤ high'.toNat) := by
  split at h
  · exact ⟨Nat.le_trans h hle, fun _ => h⟩
  · next hne => exact ⟨h, fun heq => absurd (UInt8.toNat_inj.mp heq) hne⟩

/-- The character read first is encoded by the bytes it was read from. -/
theorem encode_firstChar {a : UInt8} {r : Bytes} {c : Char} {extra : Nat}
    (h : firstChar? (a :: r) = some (c, extra)) : String.utf8EncodeChar c = a :: r.take extra := by
  unfold firstChar? at h
  dsimp only at h
  split at h
  · next ha =>
    cases h
    have ha : a.toNat < 128 := ha
    have hvalid : a.toNat.isValidChar := .inl (by omega)
    unfold String.utf8EncodeChar
    rw [val_ofNat hvalid]
    dsimp only
    rw [if_pos (by omega), UInt8.ofNat_toNat, List.take_zero]
  · split at h
    · next ha =>
      rcases r with _ | ⟨b, r⟩
      · cases h
      · obtain ⟨x, hx, h⟩ := Option.bind_eq_some_iff.mp h
        cases h
        obtain ⟨hb, rfl⟩ := bounds_of_tail hx
        exact encode_two (toNat_of_range ha) hb
    · split at h
      · next ha =>
        rcases r with _ | ⟨b, _ | ⟨d, r⟩⟩
        · cases h
        · cases h
        · obtain ⟨x, hx, h⟩ := Option.bind_eq_some_iff.mp h
          obtain ⟨y, hy, h⟩ := Option.bind_eq_some_iff.mp h
          cases h
          obtain ⟨⟨hlow, hhigh⟩, rfl⟩ := bounds_of_tail hx
          obtain ⟨hd, rfl⟩ := bounds_of_tail hy
          obtain ⟨hlow, hlong⟩ := le_of_lower (by decide) hlow
          obtain ⟨hhigh, hvalid⟩ := le_of_upper (by decide) hhigh
          exact encode_three (toNat_of_range ha) ⟨hlow, hhigh⟩ hlong hvalid hd
      · split at h
        · next ha =>
          rcases r with _ | ⟨b, _ | ⟨d, _ | ⟨e, r⟩⟩⟩
          · cases h
          · cases h
          · cases h
          · obtain ⟨x, hx, h⟩ := Option.bind_eq_some_iff.mp h
            obtain ⟨y, hy, h⟩ := Option.bind_eq_some_iff.mp h
            obtain ⟨z, hz, h⟩ := Option.bind_eq_some_iff.mp h
            cases h
            obtain ⟨⟨hlow, hhigh⟩, rfl⟩ := bounds_of_tail hx
            obtain ⟨hd, rfl⟩ := bounds_of_tail hy
            obtain ⟨he, rfl⟩ := bounds_of_tail hz
            obtain ⟨hlow, hlong⟩ := le_of_lower (by decide) hlow
            obtain ⟨hhigh, hvalid⟩ := le_of_upper (by decide) hhigh
            exact encode_four (toNat_of_range ha) ⟨hlow, hhigh⟩ hlong hvalid hd he
        · cases h
/-- The scalars of a text are encoded by its bytes. -/
theorem flatMap_scalars {encode : UInt8 ⊕ Char → Bytes} (hbyte : ∀ b, encode (.inl b) = [b])
    (hchar : ∀ c, encode (.inr c) = String.utf8EncodeChar c) (s : Bytes) : (scalars s).flatMap encode = s := by
  fun_induction scalars s with
  | case1 => rfl
  | case2 a r c extra hfirst ih =>
    rw [List.flatMap_cons, ih, hchar, encode_firstChar hfirst, List.cons_append, List.take_append_drop]
  | case3 a r hfirst ih => rw [List.flatMap_cons, ih, hbyte, List.singleton_append]

theorem infix_of_trim {encode : UInt8 ⊕ Char → Bytes} (hbyte : ∀ b, encode (.inl b) = [b])
    (hchar : ∀ c, encode (.inr c) = String.utf8EncodeChar c) (p : UInt8 ⊕ Char → Bool) (s : Bytes) :
    (((scalars s).dropWhile p).reverse.dropWhile p).reverse.flatMap encode <:+: s := by
  have hfront : (((scalars s).dropWhile p).reverse.dropWhile p).reverse <+: (scalars s).dropWhile p :=
    List.rdropWhile_prefix p _
  obtain ⟨before, behind, hsplit⟩ := hfront.isInfix.trans (List.dropWhile_suffix p).isInfix
  refine ⟨before.flatMap encode, behind.flatMap encode, ?_⟩
  rw [← List.flatMap_append, ← List.flatMap_append, hsplit, flatMap_scalars hbyte hchar]

/-- What is left of a trimmed text is a part of it. -/
theorem trimBytes_infix (s : Bytes) : trimBytes s <:+: s := by
  unfold trimBytes
  apply infix_of_trim
  · intro b
    rfl
  · intro c
    rfl

end Codemod.Text
