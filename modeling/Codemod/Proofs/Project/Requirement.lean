import Codemod.Project.Manifest
import Codemod.Proofs.Version.Canonical

namespace Codemod

namespace Version

/-- What a version is written with. -/
def isVersionChar (c : Char) : Bool := isIdentChar c || c == '.' || c == '+'

theorem isVersionChar_ident {c : Char} (h : isIdentChar c = true) : isVersionChar c = true := by
  rw [isVersionChar, h, Bool.true_or, Bool.true_or]

theorem isVersionChar_digit {c : Char} (h : c.isDigit = true) : isVersionChar c = true :=
  isVersionChar_ident (isIdentChar_digit h)

theorem mem_splitChars {sep c : Char} {s : List Char} (hc : c ∈ s) : c = sep ∨ ∃ part ∈ splitChars sep s, c ∈ part := by
  induction s with
  | nil => cases hc
  | cons d s ih =>
    rw [splitChars]
    by_cases hd : d = sep
    · rw [if_pos hd]
      obtain rfl | hc := List.mem_cons.mp hc
      · exact .inl hd
      · obtain hsep | ⟨part, hpart, hmem⟩ := ih hc
        · exact .inl hsep
        · exact .inr ⟨part, List.mem_cons_of_mem _ hpart, hmem⟩
    · rw [if_neg hd]
      cases hparts : splitChars sep s with
      | nil =>
        rw [hparts] at ih
        obtain rfl | hc := List.mem_cons.mp hc
        · exact .inr ⟨[c], by simp, by simp⟩
        · obtain hsep | ⟨_, hnil, -⟩ := ih hc
          · exact .inl hsep
          · cases hnil
      | cons first rest =>
        rw [hparts] at ih
        obtain rfl | hc := List.mem_cons.mp hc
        · exact .inr ⟨c :: first, List.mem_cons_self .., List.mem_cons_self ..⟩
        · obtain hsep | ⟨part, hpart, hmem⟩ := ih hc
          · exact .inl hsep
          · obtain rfl | hpart := List.mem_cons.mp hpart
            · exact .inr ⟨d :: part, List.mem_cons_self .., List.mem_cons_of_mem _ hmem⟩
            · exact .inr ⟨part, List.mem_cons_of_mem _ hpart, hmem⟩

section Written

variable {s : List Char}

theorem isVersionChar_of_identifiers {parts : List (List Char)} (h : identifiers? s = some parts) :
    ∀ c ∈ s, isVersionChar c = true := by
  have hparts := mem_identifiers? h
  unfold identifiers? at h
  dsimp only at h
  split at h
  · cases h
    intro c hc
    obtain rfl | ⟨part, hpart, hmem⟩ : c = '.' ∨ ∃ part ∈ splitChars '.' s, c ∈ part := mem_splitChars hc
    · rfl
    · exact isVersionChar_ident ((hparts part hpart).2 c hmem)
  · cases h

theorem isVersionChar_of_readNumber {n : Nat} {rest : List Char} (h : readNumber s = some (n, rest))
    (hrest : ∀ c ∈ rest, isVersionChar c = true) : ∀ c ∈ s, isVersionChar c = true := by
  unfold readNumber at h
  dsimp only at h
  split at h
  · cases h
  · cases h
    intro c hc
    rw [← List.takeWhile_append_dropWhile (p := Char.isDigit) (l := s), List.mem_append] at hc
    obtain hc | hc := hc
    · exact isVersionChar_digit (List.mem_takeWhile_imp hc)
    · exact hrest c hc

theorem isVersionChar_of_readSuffix {marks : List ReleaseMark} (h : readSuffix s = some marks) :
    ∀ c ∈ s, isVersionChar c = true := by
  -- up to a plus stand the marks of a pre-release, and from it on those of a build
  have hpre : ∀ c ∈ s.takeWhile (· != '+'), isVersionChar c = true := by
    unfold readSuffix at h
    dsimp only at h
    split at h
    · next hnil =>
      rw [hnil]
      simp
    · next pre hcons =>
      obtain ⟨found, hfound, -⟩ := Option.bind_eq_some_iff.mp h
      obtain ⟨parts, hparts, -⟩ := Option.bind_eq_some_iff.mp hfound
      rw [hcons]
      exact List.forall_mem_cons.mpr ⟨rfl, isVersionChar_of_identifiers hparts⟩
    · cases h
  have hbuild : ∀ c ∈ s.dropWhile (· != '+'), isVersionChar c = true := by
    have hplus := List.head?_dropWhile_not (· != '+') s
    cases hdrop : s.dropWhile (· != '+') with
    | nil => simp
    | cons plus build =>
      rw [hdrop] at hplus
      have hplus : plus = '+' := by simpa using hplus
      obtain ⟨found, hfound⟩ : ∃ found, (identifiers? build).map (fun _ => found) = some marks := by
        unfold readSuffix at h
        dsimp only at h
        rw [hdrop] at h
        split at h
        · exact ⟨[], h⟩
        · obtain ⟨found, -, hfound⟩ := Option.bind_eq_some_iff.mp h
          exact ⟨found, hfound⟩
        · cases h
      obtain ⟨parts, hparts, -⟩ := Option.map_eq_some_iff.mp hfound
      exact List.forall_mem_cons.mpr ⟨hplus ▸ rfl, isVersionChar_of_identifiers hparts⟩
  intro c hc
  rw [← List.takeWhile_append_dropWhile (p := (· != '+')) (l := s), List.mem_append] at hc
  exact hc.elim (hpre c) (hbuild c)

theorem isVersionChar_of_parse? {v : Version} (h : parse? s = some v) : ∀ c ∈ s, isVersionChar c = true := by
  unfold parse? at h
  obtain ⟨⟨major, rest⟩, hmajor, h⟩ := Option.bind_eq_some_iff.mp h
  refine isVersionChar_of_readNumber hmajor ?_
  dsimp only at h
  split at h
  · simp
  · obtain ⟨⟨minor, rest⟩, hminor, h⟩ := Option.bind_eq_some_iff.mp h
    refine List.forall_mem_cons.mpr ⟨rfl, isVersionChar_of_readNumber hminor ?_⟩
    dsimp only at h
    split at h
    · simp
    · obtain ⟨⟨patch, rest⟩, hpatch, h⟩ := Option.bind_eq_some_iff.mp h
      obtain ⟨pre, hpre, -⟩ := Option.bind_eq_some_iff.mp h
      exact List.forall_mem_cons.mpr ⟨rfl, isVersionChar_of_readNumber hpatch (isVersionChar_of_readSuffix hpre)⟩
    · cases h
  · cases h

end Written

theorem isBlank_versionChar {c : Char} (h : isVersionChar c = true) : Text.isBlank c = false := by
  simp only [isVersionChar, Bool.or_eq_true, beq_iff_eq] at h
  obtain (hident | rfl) | rfl := h
  · exact isBlank_identChar hident
  · rfl
  · rfl

/-- A version without blanks around it that begins with a digit has no other characters than those of versions. -/
theorem isVersionChar_of_ofString {text : String} {v : Version} (h : ofString text = .ok v) (htrim : Text.trim text = text)
    {first : Char} {rest : List Char} (htext : text.toList = first :: rest) (hdigit : first.isDigit = true) :
    ∀ c ∈ text.toList, isVersionChar c = true := by
  have hchars : Text.trimChars text.toList = text.toList := by
    calc Text.trimChars text.toList
      _ = (Text.trim text).toList := String.toList_ofList.symm
      _ = text.toList := congrArg String.toList htrim
  have hfirst : first ≠ 'v' := by
    rintro rfl
    cases hdigit
  unfold ofString at h
  rw [hchars, htext] at h
  dsimp only at h
  split at h
  · next hparse =>
    split at hparse
    · next heq => exact absurd (List.cons.inj heq).1 hfirst
    · rw [htext]
      exact isVersionChar_of_parse? hparse
  · cases h

end Version

namespace Project

open Version

/-- The operators that can stand before a version. -/
def operators : List String := ["", "^", "~", ">=", "=", "v"]

/-- A version behind an operator is recognised if and only if there is no x in it. -/
theorem plainVersion?_of_version {text : String} {v : Version} (h : Version.ofString text = .ok v)
    (htrim : Text.trim text = text) (hdigit : ∃ first rest, text.toList = first :: rest ∧ first.isDigit = true) :
    ∀ operator ∈ operators, plainVersion? (operator ++ text) =
      if 'x' ∈ text.toList ∨ 'X' ∈ text.toList then none else some text := by
  intro operator hoperator
  obtain ⟨first, rest, htext, hfirst⟩ := hdigit
  have hchars := isVersionChar_of_ofString h htrim htext hfirst
  -- operators have no blanks around them and are passed over as a whole
  have hoperators : ∀ operator ∈ operators, ∀ c ∈ operator.toList,
      Text.isBlank c = false ∧ ['^', '~', '>', '=', 'v', ' '].contains c = true := by decide
  have hpassed := hoperators operator hoperator
  have hblank : Text.trimChars (operator ++ text).toList = operator.toList ++ text.toList := by
    rw [String.toList_append]
    apply trimChars_eq_self
    intro c hc
    obtain hc | hc := List.mem_append.mp hc
    · exact (hpassed c hc).1
    · exact isBlank_versionChar (hchars c hc)
  have hstop : ['^', '~', '>', '=', 'v', ' '].contains first = false := by
    rw [← Bool.not_eq_true, List.contains_iff_mem]
    intro hmem
    have hnone : ∀ c ∈ ['^', '~', '>', '=', 'v', ' '], c.isDigit = false := by decide
    rw [hnone first hmem] at hfirst
    cases hfirst
  have hversion : (operator.toList ++ text.toList).dropWhile (fun c => ['^', '~', '>', '=', 'v', ' '].contains c) =
      text.toList := by
    rw [List.dropWhile_append_of_pos fun c hc => (hpassed c hc).2, htext, List.dropWhile_cons_of_neg (by simpa using hstop)]
  have hforeign : (text.toList.any fun c => [' ', '|', '<', ':', '/', '*', 'x', 'X'].contains c) =
      decide ('x' ∈ text.toList ∨ 'X' ∈ text.toList) := by
    rw [Bool.eq_iff_iff, decide_eq_true_eq, List.any_eq_true]
    constructor
    · rintro ⟨c, hc, hmem⟩
      have hforeign : ∀ c ∈ [' ', '|', '<', ':', '/', '*', 'x', 'X'], isVersionChar c = false ∨ c = 'x' ∨ c = 'X' := by
        decide
      obtain hnone | rfl | rfl := hforeign c (List.contains_iff_mem.mp hmem)
      · rw [hchars c hc] at hnone
        cases hnone
      · exact .inl hc
      · exact .inr hc
    · rintro (hc | hc)
      · exact ⟨'x', hc, rfl⟩
      · exact ⟨'X', hc, rfl⟩
  unfold plainVersion?
  dsimp only
  rw [hblank, hversion, hforeign]
  rw [htext]
  dsimp only
  rw [hfirst, ← htext, String.ofList_toList]
  by_cases hx : 'x' ∈ text.toList ∨ 'X' ∈ text.toList
  · simp [hx]
  · simp [hx]

/-- A candidate of a release with its build. -/
theorem plainVersion?_of_version_candidate :
    Version.ofString "12.0.0-rc.1+build.5" = .ok ⟨12, 0, 0, [.word ['r', 'c'], .number 1]⟩ ∧
    ∀ operator ∈ operators, plainVersion? (operator ++ "12.0.0-rc.1+build.5") = some "12.0.0-rc.1+build.5" := by
  have hversion : Version.ofString "12.0.0-rc.1+build.5" = .ok ⟨12, 0, 0, [.word ['r', 'c'], .number 1]⟩ := rfl
  refine ⟨hversion, fun operator hoperator => ?_⟩
  have htext : "12.0.0-rc.1+build.5".toList = '1' :: "2.0.0-rc.1+build.5".toList := by decide
  rw [plainVersion?_of_version hversion (by decide) ⟨_, _, htext, rfl⟩ operator hoperator]
  exact if_neg (by decide)

/-- The x of a word in a pre-release mark is taken for one that stands for any number. -/
theorem plainVersion?_next : (Version.ofString "12.0.0-next.1").toBool = true ∧
    Text.trim "12.0.0-next.1" = "12.0.0-next.1" ∧ (∃ rest, "12.0.0-next.1".toList = '1' :: rest) ∧
    "^" ∈ operators ∧ plainVersion? ("^" ++ "12.0.0-next.1") = none :=
  ⟨by decide, by decide, ⟨_, rfl⟩, by decide, by decide⟩

end Project

end Codemod
