import Codemod.Version
import Mathlib.Data.List.TakeWhile

namespace Codemod.Version

section Numbers

variable (n : Nat)

theorem digitsValue_eq (digits : List Char) : digitsValue digits = Nat.ofDigitChars 10 digits 0 := by
  have hstep : (fun (n : Nat) (c : Char) => n * 10 + (c.toNat - 48)) = fun n c => 10 * n + (c.toNat - '0'.toNat) := by
    funext n c
    rw [Nat.mul_comm]
    rfl
  rw [digitsValue, hstep]
  rfl

theorem digitsValue_toDigits : digitsValue (Nat.toDigits 10 n) = n := by
  rw [digitsValue_eq, Nat.ofDigitChars_ten_toDigits]

theorem isDigit_of_mem_toDigits : ∀ c ∈ Nat.toDigits 10 n, c.isDigit = true := by
  intro c hc
  exact Nat.isDigit_of_mem_toDigits (by decide) (by decide) hc

theorem eq_zero_of_head?_toDigits (h : (Nat.toDigits 10 n).head? = some '0') : n = 0 := by
  induction n using Nat.strongRecOn with
  | ind n ih =>
    rw [Nat.toDigits_eq_if (by decide)] at h
    split at h
    · exact Nat.digitChar_eq_zero.mp (Option.some.inj h)
    · next hn =>
      -- the last digit stands behind those of a smaller number
      have hhead : (Nat.toDigits 10 (n / 10)).head? = some '0' := by
        obtain ⟨d, digits, hdigits⟩ := List.exists_cons_of_ne_nil (Nat.toDigits_ne_nil (n := n / 10) (b := 10))
        rw [hdigits] at h ⊢
        exact h
      have hzero := ih (n / 10) (by omega) hhead
      omega

/-- No number is written with a zero in front. -/
theorem leading_toDigits :
    ((Nat.toDigits 10 n).head? == some '0' && decide ((Nat.toDigits 10 n).length ≠ 1)) = false := by
  by_cases h : (Nat.toDigits 10 n).head? = some '0'
  · rw [eq_zero_of_head?_toDigits n h]
    rfl
  · rw [Bool.and_eq_false_iff]
    exact .inl (by simpa using h)

theorem readNumber_toDigits {rest : List Char} (hrest : rest.takeWhile Char.isDigit = []) :
    readNumber (Nat.toDigits 10 n ++ rest) = some (n, rest) := by
  have htake : (Nat.toDigits 10 n ++ rest).takeWhile Char.isDigit = Nat.toDigits 10 n := by
    rw [List.takeWhile_append_of_pos (isDigit_of_mem_toDigits n), hrest, List.append_nil]
  have hdrop : (Nat.toDigits 10 n ++ rest).dropWhile Char.isDigit = rest := by
    have hall : rest.takeWhile Char.isDigit ++ rest.dropWhile Char.isDigit = rest := List.takeWhile_append_dropWhile
    rw [hrest, List.nil_append] at hall
    rw [List.dropWhile_append_of_pos (isDigit_of_mem_toDigits n), hall]
  have hne : (Nat.toDigits 10 n).isEmpty = false := by simp
  unfold readNumber
  simp only [htake, hdrop, hne, leading_toDigits n, Bool.or_self, Bool.false_eq_true, if_false, digitsValue_toDigits]

end Numbers

section Identifiers

variable {c : Char}

/-- Where the characters of an identifier are among all. -/
theorem isIdentChar_bounds (h : isIdentChar c = true) :
    c.toNat = 45 ∨ (48 ≤ c.toNat ∧ c.toNat ≤ 57) ∨ (65 ≤ c.toNat ∧ c.toNat ≤ 90) ∨ (97 ≤ c.toNat ∧ c.toNat ≤ 122) := by
  have hclass : (c.isUpper || c.isLower || c.isDigit || c == '-') = true := h
  simp only [Bool.or_eq_true, beq_iff_eq] at hclass
  obtain ((hupper | hlower) | hdigit) | rfl := hclass
  · obtain ⟨hleast, hmost⟩ := of_decide_eq_true hupper
    exact .inr (.inr (.inl ⟨hleast, hmost⟩))
  · obtain ⟨hleast, hmost⟩ := (Bool.and_eq_true _ _).mp hlower
    exact .inr (.inr (.inr ⟨of_decide_eq_true hleast, of_decide_eq_true hmost⟩))
  · obtain ⟨hleast, hmost⟩ := (Bool.and_eq_true _ _).mp hdigit
    exact .inr (.inl ⟨of_decide_eq_true hleast, of_decide_eq_true hmost⟩)
  · exact .inl rfl

theorem isBlank_identChar (h : isIdentChar c = true) : Text.isBlank c = false := by
  have hbounds := isIdentChar_bounds h
  simp only [Text.isBlank, Bool.or_eq_false_iff, Bool.and_eq_false_iff, decide_eq_false_iff_not, beq_eq_false_iff_ne]
  omega

theorem ne_of_isIdentChar {d : Char} (h : isIdentChar c = true) (hd : isIdentChar d = false) : c ≠ d := by
  rintro rfl
  rw [h] at hd
  cases hd

theorem isIdentChar_digit (h : c.isDigit = true) : isIdentChar c = true := by
  rw [isIdentChar, Char.isAlphanum, h, Bool.or_true, Bool.true_or]

theorem splitChars_eq (sep : Char) (s : List Char) : splitChars sep s = s.splitOn sep := by
  induction s with
  | nil => rfl
  | cons c s ih =>
    rw [splitChars, ih, List.splitOn, List.splitOn, List.splitOnP_cons_eq_if_modifyHead]
    by_cases hc : c = sep
    · rw [if_pos hc, if_pos (by simpa using hc)]
    · rw [if_neg hc, if_neg (by simpa using hc)]
      cases hparts : s.splitOnP (· == sep) with
      | nil => exact absurd hparts (List.splitOnP_ne_nil _ _)
      | cons part parts => rfl

theorem identifiers?_intercalate {parts : List (List Char)} (hne : parts ≠ [])
    (h : ∀ part ∈ parts, part ≠ [] ∧ ∀ c ∈ part, isIdentChar c = true) :
    identifiers? (['.'].intercalate parts) = some parts := by
  have hsplit : splitChars '.' (['.'].intercalate parts) = parts := by
    rw [splitChars_eq]
    apply List.splitOn_intercalate _ _ hne
    intro part hpart hdot
    exact ne_of_isIdentChar ((h part hpart).2 '.' hdot) rfl rfl
  unfold identifiers?
  rw [hsplit]
  apply if_pos
  rw [List.all_eq_true]
  intro part hpart
  rw [Bool.and_eq_true, List.all_eq_true]
  exact ⟨by simpa using (h part hpart).1, (h part hpart).2⟩

theorem mem_identifiers? {s : List Char} {parts : List (List Char)} (h : identifiers? s = some parts) :
    ∀ part ∈ parts, part ≠ [] ∧ ∀ c ∈ part, isIdentChar c = true := by
  unfold identifiers? at h
  dsimp only at h
  split at h
  · next hall =>
    cases h
    intro part hpart
    have hboth := List.all_eq_true.mp hall part hpart
    rw [Bool.and_eq_true, List.all_eq_true] at hboth
    exact ⟨by simpa using hboth.1, hboth.2⟩
  · cases h

end Identifiers

/-- A mark that can stand in a version: its text is an identifier and is read as the mark. -/
structure Legible (m : ReleaseMark) : Prop where
  nonempty : markText m ≠ []
  ident : ∀ c ∈ markText m, isIdentChar c = true
  read : releaseMark? (markText m) = some m

theorem markText_number (n : Nat) : markText (.number n) = Nat.toDigits 10 n := by
  rw [markText, Nat.toString_eq_repr, Nat.toList_repr]

theorem legible_number (n : Nat) : Legible (.number n) := by
  have hdigits := isDigit_of_mem_toDigits n
  refine ⟨?_, ?_, ?_⟩
  · rw [markText_number]
    exact Nat.toDigits_ne_nil
  · rw [markText_number]
    exact fun c hc => isIdentChar_digit (hdigits c hc)
  · rw [markText_number, releaseMark?, if_pos (List.all_eq_true.mpr hdigits), leading_toDigits, digitsValue_toDigits]
    rfl

theorem legible_of_read {part : List Char} {m : ReleaseMark} (hne : part ≠ [])
    (hident : ∀ c ∈ part, isIdentChar c = true) (h : releaseMark? part = some m) : Legible m := by
  have hread := h
  unfold releaseMark? at h
  split at h
  · split at h
    · cases h
    · cases h
      exact legible_number _
  · cases h
    exact ⟨hne, hident, hread⟩

theorem mapM_releaseMark? {marks : List ReleaseMark} (h : ∀ m ∈ marks, Legible m) :
    (marks.map markText).mapM releaseMark? = some marks := by
  induction marks with
  | nil => rfl
  | cons m marks ih =>
    rw [List.map_cons, List.mapM_cons, (h m (List.mem_cons_self ..)).read, ih fun m' hm' => h m' (List.mem_cons_of_mem _ hm')]
    rfl

theorem legible_of_mapM {parts : List (List Char)} {marks : List ReleaseMark}
    (hparts : ∀ part ∈ parts, part ≠ [] ∧ ∀ c ∈ part, isIdentChar c = true) (h : parts.mapM releaseMark? = some marks) :
    ∀ m ∈ marks, Legible m := by
  induction parts generalizing marks with
  | nil =>
    cases h
    exact fun m hm => absurd hm List.not_mem_nil
  | cons part parts ih =>
    rw [List.mapM_cons] at h
    obtain ⟨first, hfirst, h⟩ := Option.bind_eq_some_iff.mp h
    obtain ⟨later, hlater, h⟩ := Option.bind_eq_some_iff.mp h
    cases h
    intro m hm
    obtain rfl | hm := List.mem_cons.mp hm
    · obtain ⟨hne, hident⟩ := hparts part (List.mem_cons_self ..)
      exact legible_of_read hne hident hfirst
    · exact ih (fun p hp => hparts p (List.mem_cons_of_mem _ hp)) hlater m hm

/-- The text of a pre-release mark behind the numbers. -/
def preText (pre : List ReleaseMark) : List Char :=
  if pre.isEmpty then [] else '-' :: ['.'].intercalate (pre.map markText)

theorem toList_toText (v : Version) : v.toText.toList =
    'v' :: (Nat.toDigits 10 v.major ++ '.' :: (Nat.toDigits 10 v.minor ++ '.' ::
      (Nat.toDigits 10 v.patch ++ preText v.pre))) := by
  have hpre : (if v.pre.isEmpty then "" else
      "-" ++ ".".intercalate (v.pre.map fun m => String.ofList (markText m))).toList = preText v.pre := by
    unfold preText
    split
    · rfl
    · have hmarks : v.pre.map (String.toList ∘ fun m => String.ofList (markText m)) = v.pre.map markText := by
        exact List.map_congr_left fun m _ => String.toList_ofList
      rw [String.toList_append, String.toList_intercalate, List.map_map, hmarks]
      rfl
  simp only [toText, String.toList_append, hpre, Nat.toString_eq_repr, Nat.toList_repr, List.append_assoc]
  rfl

section Reading

variable {pre : List ReleaseMark} (h : ∀ m ∈ pre, Legible m)

theorem mem_intercalate {parts : List (List Char)} {c : Char} (hc : c ∈ ['.'].intercalate parts) :
    c = '.' ∨ ∃ part ∈ parts, c ∈ part := by
  induction parts with
  | nil => cases hc
  | cons part parts ih =>
    cases parts with
    | nil =>
      rw [List.intercalate_singleton] at hc
      exact .inr ⟨part, List.mem_cons_self .., hc⟩
    | cons next parts =>
      rw [List.intercalate_cons_cons, List.mem_append, List.mem_append] at hc
      obtain (hc | hc) | hc := hc
      · exact .inr ⟨part, List.mem_cons_self .., hc⟩
      · exact .inl (List.mem_singleton.mp hc)
      · obtain hdot | ⟨later, hlater, hc⟩ := ih hc
        · exact .inl hdot
        · exact .inr ⟨later, List.mem_cons_of_mem _ hlater, hc⟩

include h

theorem mem_preText {c : Char} (hc : c ∈ preText pre) : isIdentChar c = true ∨ c = '.' := by
  unfold preText at hc
  split at hc
  · cases hc
  · obtain rfl | hc := List.mem_cons.mp hc
    · exact .inl rfl
    · obtain hdot | ⟨part, hpart, hc⟩ := mem_intercalate hc
      · exact .inr hdot
      · obtain ⟨m, hm, rfl⟩ := List.mem_map.mp hpart
        exact .inl ((h m hm).ident c hc)

theorem readSuffix_preText : readSuffix (preText pre) = some pre := by
  have hplus : ∀ c ∈ preText pre, (c != '+') = true := by
    intro c hc
    rw [bne_iff_ne]
    obtain hident | rfl := mem_preText h hc
    · exact ne_of_isIdentChar hident rfl
    · decide
  have htake := List.takeWhile_eq_self_iff.mpr hplus
  have hdrop := List.dropWhile_eq_nil_iff.mpr hplus
  cases pre with
  | nil => rfl
  | cons m marks =>
    have hparts : ∀ part ∈ (m :: marks).map markText, part ≠ [] ∧ ∀ c ∈ part, isIdentChar c = true := by
      intro part hpart
      obtain ⟨m', hm', rfl⟩ := List.mem_map.mp hpart
      exact ⟨(h m' hm').nonempty, (h m' hm').ident⟩
    have hmarks : (identifiers? (['.'].intercalate ((m :: marks).map markText))).bind (·.mapM releaseMark?) =
        some (m :: marks) := by
      rw [identifiers?_intercalate (by simp) hparts]
      exact mapM_releaseMark? h
    unfold readSuffix
    rw [htake, hdrop]
    simp only [preText, List.isEmpty_cons, Bool.false_eq_true, if_false, hmarks]
    rfl

theorem parse?_preText (major minor patch : Nat) :
    parse? (Nat.toDigits 10 major ++ '.' :: (Nat.toDigits 10 minor ++ '.' :: (Nat.toDigits 10 patch ++ preText pre))) =
      some ⟨major, minor, patch, pre⟩ := by
  have hdot (rest : List Char) : ('.' :: rest).takeWhile Char.isDigit = [] := rfl
  have hpre : (preText pre).takeWhile Char.isDigit = [] := by cases pre <;> rfl
  unfold parse?
  rw [readNumber_toDigits major (hdot _)]
  change (readNumber (Nat.toDigits 10 minor ++ '.' :: _)).bind _ = _
  rw [readNumber_toDigits minor (hdot _)]
  change (readNumber (Nat.toDigits 10 patch ++ preText pre)).bind _ = _
  rw [readNumber_toDigits patch hpre]
  change (readSuffix (preText pre)).bind _ = _
  rw [readSuffix_preText h]
  rfl

end Reading

theorem legible_of_identifiers {s : List Char} {marks : List ReleaseMark}
    (h : (identifiers? s).bind (·.mapM releaseMark?) = some marks) : ∀ m ∈ marks, Legible m := by
  obtain ⟨parts, hparts, hmarks⟩ := Option.bind_eq_some_iff.mp h
  exact legible_of_mapM (mem_identifiers? hparts) hmarks

theorem legible_of_readSuffix {s : List Char} {marks : List ReleaseMark} (h : readSuffix s = some marks) :
    ∀ m ∈ marks, Legible m := by
  have hnone : ∀ m ∈ ([] : List ReleaseMark), Legible m := fun m hm => absurd hm List.not_mem_nil
  unfold readSuffix at h
  dsimp only at h
  -- the build is left out, whether there is one or not
  split at h
  · split at h
    · exact Option.some.inj h ▸ hnone
    · obtain ⟨_, _, heq⟩ := Option.map_eq_some_iff.mp h
      exact heq ▸ hnone
  · obtain ⟨found, hfound, h⟩ := Option.bind_eq_some_iff.mp h
    split at h
    · exact Option.some.inj h ▸ legible_of_identifiers hfound
    · obtain ⟨_, _, heq⟩ := Option.map_eq_some_iff.mp h
      exact heq ▸ legible_of_identifiers hfound
  · cases h

/-- Only three numbers are followed by a mark. -/
theorem legible_of_parse? {s : List Char} {v : Version} (h : parse? s = some v) : ∀ m ∈ v.pre, Legible m := by
  have hbare (major minor patch : Nat) : ∀ m ∈ (⟨major, minor, patch, []⟩ : Version).pre, Legible m := by
    exact fun m hm => absurd hm List.not_mem_nil
  unfold parse? at h
  obtain ⟨⟨major, rest⟩, -, h⟩ := Option.bind_eq_some_iff.mp h
  dsimp only at h
  split at h
  · cases h
    exact hbare major 0 0
  · obtain ⟨⟨minor, rest⟩, -, h⟩ := Option.bind_eq_some_iff.mp h
    dsimp only at h
    split at h
    · cases h
      exact hbare major minor 0
    · obtain ⟨⟨patch, rest⟩, -, h⟩ := Option.bind_eq_some_iff.mp h
      obtain ⟨pre, hpre, h⟩ := Option.bind_eq_some_iff.mp h
      cases h
      exact legible_of_readSuffix hpre
    · cases h
  · cases h

theorem trimChars_eq_self {s : List Char} (h : ∀ c ∈ s, Text.isBlank c = false) : Text.trimChars s = s := by
  have hfront : s.dropWhile Text.isBlank = s := by
    rw [List.dropWhile_eq_self_iff]
    intro hpos
    rw [h _ (List.getElem_mem hpos)]
    exact Bool.false_ne_true
  have hback : s.reverse.dropWhile Text.isBlank = s.reverse := by
    rw [List.dropWhile_eq_self_iff]
    intro hpos
    rw [h _ (List.mem_reverse.mp (List.getElem_mem hpos))]
    exact Bool.false_ne_true
  rw [Text.trimChars, hfront, hback, List.reverse_reverse]

/-- The canonical text of a version is read as the version. -/
def Canonical (v : Version) : Prop := ofString v.toText = .ok v

theorem canonical_of_legible {v : Version} (h : ∀ m ∈ v.pre, Legible m) : v.Canonical := by
  have hdigits (n : Nat) : ∀ c ∈ Nat.toDigits 10 n, Text.isBlank c = false := by
    exact fun c hc => isBlank_identChar (isIdentChar_digit (isDigit_of_mem_toDigits n c hc))
  have hblank : ∀ c ∈ v.toText.toList, Text.isBlank c = false := by
    intro c hc
    rw [toList_toText] at hc
    simp only [List.mem_cons, List.mem_append] at hc
    obtain rfl | hc | rfl | hc | rfl | hc | hc := hc
    · rfl
    · exact hdigits _ c hc
    · rfl
    · exact hdigits _ c hc
    · rfl
    · exact hdigits _ c hc
    · obtain hident | rfl := mem_preText h hc
      · exact isBlank_identChar hident
      · rfl
  have hparse := parse?_preText h v.major v.minor v.patch
  unfold Canonical ofString
  rw [trimChars_eq_self hblank, toList_toText]
  simp only [hparse]

/-- Every version that has been read is canonical. -/
theorem canonical_of_ofString {text : String} {v : Version} (h : ofString text = .ok v) : v.Canonical := by
  apply canonical_of_legible
  unfold ofString at h
  dsimp only at h
  split at h
  · next hparse =>
    cases h
    exact legible_of_parse? hparse
  · cases h

/-- Canonical versions with the same text are the same. -/
theorem Canonical.eq_of_toText {v w : Version} (hv : v.Canonical) (hw : w.Canonical) (h : v.toText = w.toText) : v = w := by
  have hboth : Except.ok v = (Except.ok w : Except Fault Version) := by
    rw [← hv.symm.trans ((congrArg ofString h).trans hw)]
  exact Except.ok.inj hboth

end Codemod.Version
