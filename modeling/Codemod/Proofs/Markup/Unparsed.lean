import Codemod.Proofs.Markup.Mark

namespace Codemod.Markup

theorem throughAngle_le (s : Bytes) : throughAngle s ≤ s.length := by
  induction s with
  | nil => simp [throughAngle]
  | cons c s ih =>
    rw [throughAngle]
    split <;> simp only [List.length_cons] <;> omega

theorem throughAngle_pos (c : UInt8) (s : Bytes) : 0 < throughAngle (c :: s) := by
  rw [throughAngle]
  split <;> omega

/-- A closed range does not depend on what follows. -/
theorem throughAngle_append {u v : Bytes} (hv : v ≠ []) (h : throughAngle (u ++ v) = u.length) (y : Bytes) :
    throughAngle (u ++ y) = u.length ∧ u.getLast? = some 62 := by
  induction u with
  | nil =>
    obtain ⟨c, v, rfl⟩ := List.exists_cons_of_ne_nil hv
    have := throughAngle_pos c v
    simp only [List.nil_append, List.length_nil] at h
    omega
  | cons c u ih =>
    rw [List.cons_append, throughAngle] at h ⊢
    by_cases hc : (c == ('>' : Char).toUInt8) = true
    · rw [if_pos hc] at h ⊢
      have hu : u = [] := List.eq_nil_of_length_eq_zero (by simpa using h.symm)
      subst hu
      have hc62 : c = 62 := beq_iff_eq.mp hc
      simp [hc62]
    · rw [if_neg hc] at h ⊢
      have hu : u ≠ [] := by
        rintro rfl
        obtain ⟨d, v, rfl⟩ := List.exists_cons_of_ne_nil hv
        have := throughAngle_pos d v
        simp only [List.nil_append, List.length_cons, List.length_nil] at h
        omega
      obtain ⟨ih1, ih2⟩ := ih (by rw [List.length_cons] at h; omega)
      refine ⟨by rw [ih1, List.length_cons, Nat.add_comm], ?_⟩
      rw [List.getLast?_cons, ih2]
      rfl

theorem commentLength_le (dashes : Nat) (fresh : Bool) (s : Bytes) :
    commentLength dashes fresh s ≤ s.length := by
  fun_induction commentLength dashes fresh s <;> simp only [List.length_nil, List.length_cons] <;> omega

theorem commentLength_pos (dashes : Nat) (fresh : Bool) (c : UInt8) (s : Bytes) :
    0 < commentLength dashes fresh (c :: s) := by
  rw [commentLength.eq_def]
  dsimp only
  repeat' split
  all_goals omega

/-- A closed comment does not depend on what follows. -/
theorem commentLength_append {dashes : Nat} {fresh : Bool} {u v : Bytes} (hv : v ≠ [])
    (h : commentLength dashes fresh (u ++ v) = u.length) (y : Bytes) :
    commentLength dashes fresh (u ++ y) = u.length := by
  induction hn : u.length using Nat.strong_induction_on generalizing dashes fresh u with
  | _ n ih =>
  subst hn
  cases u with
  | nil =>
    obtain ⟨c, v, rfl⟩ := List.exists_cons_of_ne_nil hv
    have := commentLength_pos dashes fresh c v
    simp only [List.nil_append, List.length_nil] at h
    omega
  | cons c u =>
    have step : ∀ {dashes fresh}, 1 + commentLength dashes fresh (u ++ v) = (c :: u).length →
        1 + commentLength dashes fresh (u ++ y) = (c :: u).length := by
      intro dashes fresh h1
      simp only [List.length_cons] at h1 ⊢
      rw [ih u.length (by simp) (by omega) rfl, Nat.add_comm]
    rw [List.cons_append, commentLength.eq_def] at h ⊢
    dsimp only at h ⊢
    split at h
    · next hdash => rw [if_pos hdash]; exact step h
    next hdash =>
    rw [if_neg hdash]
    split at h
    · next hgt => rw [if_pos hgt]; exact h
    next hgt =>
    rw [if_neg hgt]
    split at h
    · next hbang =>
      rw [if_pos hbang]
      cases u with
      | nil =>
        obtain ⟨d, v, rfl⟩ := List.exists_cons_of_ne_nil hv
        simp only [List.nil_append, List.length_cons, List.length_nil] at h
        split at h
        · omega
        · split at h <;> omega
      | cons d u =>
        have skip : ∀ {dashes fresh}, 2 + commentLength dashes fresh (u ++ v) = (c :: d :: u).length →
            2 + commentLength dashes fresh (u ++ y) = (c :: d :: u).length := by
          intro dashes fresh h1
          simp only [List.length_cons] at h1 ⊢
          rw [ih u.length (by simp only [List.length_cons]; omega) (by omega) rfl]
          omega
        simp only [List.cons_append] at h ⊢
        split at h
        · next hd => rw [if_pos hd]; exact h
        next hd =>
        rw [if_neg hd]
        split at h
        · next hd => rw [if_pos hd]; exact skip h
        · next hd => rw [if_neg hd]; exact skip h
    · next hbang => rw [if_neg hbang]; exact step h

theorem startsName_append {name s : Bytes} (h : name.length < s.length) (y : Bytes) :
    startsName name (s ++ y) = startsName name s := by
  have hd : s.drop name.length ≠ [] := by
    intro h0
    have := congrArg List.length h0
    simp only [List.length_drop, List.length_nil] at this
    omega
  rw [startsName, startsName, List.take_append_of_le_length (Nat.le_of_lt h),
    List.drop_append_of_le_length (Nat.le_of_lt h)]
  obtain ⟨c, r, hr⟩ := List.exists_cons_of_ne_nil hd
  rw [hr]
  rfl

theorem startsEndTag_append {name s : Bytes} (h : name.length + 1 < s.length) (y : Bytes) :
    startsEndTag name (s ++ y) = startsEndTag name s := by
  cases s with
  | nil => simp at h
  | cons c s =>
    rw [List.cons_append, startsEndTag, startsEndTag, startsName_append (by simpa using h)]

/-- Where raw text ends is decided by the name in its end tag. -/
theorem rawTextLength_append {name u v : Bytes} {n : Nat} (h : rawTextLength name (u ++ v) = n)
    (hn : n + name.length + 2 < u.length) (y : Bytes) : rawTextLength name (u ++ y) = n := by
  induction u generalizing n with
  | nil => simp at hn
  | cons c u ih =>
    rw [List.length_cons] at hn
    have hlook : name.length + 1 < u.length := by omega
    rw [List.cons_append, rawTextLength, startsEndTag_append hlook] at h ⊢
    split
    · next hc => rw [if_pos hc] at h; exact h
    · next hc =>
      rw [if_neg hc] at h
      rw [ih rfl (by omega)]
      exact h

theorem startsWith_append {head s : Bytes} (h : head.length ≤ s.length) (y : Bytes) :
    Bytes.startsWith (s ++ y) head = Bytes.startsWith s head := by
  rw [Bool.eq_iff_iff, Bytes.startsWith, Bytes.startsWith, List.isPrefixOf_iff_prefix, List.isPrefixOf_iff_prefix]
  constructor
  · exact fun hp => List.prefix_of_prefix_length_le hp (List.prefix_append s y) h
  · exact fun hp => hp.trans (List.prefix_append s y)

/-- How a script goes on behind a byte, unless its end tag starts there. -/
def scriptNext (skip : Nat) (state : ScriptState) (c : UInt8) (s : Bytes) : Option (Nat × ScriptState) :=
  if skip ≠ 0 then some (skip - 1, state)
  else match state with
    | .plain =>
      if c == '<' then
        if startsEndTag "script" s then none
        else if Bytes.startsWith s "!--" then some (3, .escaped 2) else some (0, .plain)
      else some (0, .plain)
    | .escaped dashes =>
      if c == '<' then
        match s with
        | [] => some (0, .plain)
        | d :: r =>
          if d == '/' then if startsName "script" r then none else some (0, .escaped 0)
          else if Bytes.isLetter d then if startsName "script" s then some (7, .doubled 0) else some (0, .escaped 0)
          else some (0, .plain)
      else if c == '-' then some (0, .escaped (dashes + 1))
      else if c == '>' && 2 ≤ dashes then some (0, .plain) else some (0, .escaped 0)
    | .doubled dashes =>
      if c == '<' then if startsEndTag "script" s then some (8, .escaped 0) else some (0, .doubled 0)
      else if c == '-' then some (0, .doubled (dashes + 1))
      else if c == '>' && 2 ≤ dashes then some (0, .plain) else some (0, .doubled 0)

theorem scriptLength_cons (skip : Nat) (state : ScriptState) (c : UInt8) (s : Bytes) :
    scriptLength skip state (c :: s) =
      (scriptNext skip state c s).elim 0 fun next => 1 + scriptLength next.1 next.2 s := by
  have helim (p : Prop) [Decidable p] (a b : Option (Nat × ScriptState)) (go : Nat × ScriptState → Nat) :
      (if p then a else b).elim 0 go = if p then a.elim 0 go else b.elim 0 go := apply_ite (Option.elim · 0 go) p a b
  rw [scriptLength.eq_def]
  unfold scriptNext
  cases state with
  | plain => simp only [helim, Option.elim_some, Option.elim_none]
  | escaped dashes =>
    cases s with
    | nil => simp only [helim, Option.elim_some, scriptLength]
    | cons d r => simp only [helim, Option.elim_some, Option.elim_none]
  | doubled dashes => simp only [helim, Option.elim_some]

/-- What decides how a script goes on stands in the next eight bytes. -/
theorem scriptNext_append (skip : Nat) (state : ScriptState) (c : UInt8) {u : Bytes} (hu : 8 ≤ u.length) (y : Bytes) :
    scriptNext skip state c (u ++ y) = scriptNext skip state c u := by
  cases u with
  | nil => simp at hu
  | cons d r =>
    have hscript : (bytes "script").length = 6 := by decide
    have hopen : (bytes "!--").length = 3 := by decide
    have hend : startsEndTag "script" (d :: r ++ y) = startsEndTag "script" (d :: r) := startsEndTag_append (by omega) y
    have hname : startsName "script" (d :: r ++ y) = startsName "script" (d :: r) := startsName_append (by omega) y
    have hslash : startsName "script" (r ++ y) = startsName "script" r :=
      startsName_append (by rw [List.length_cons] at hu; omega) y
    have hescape : Bytes.startsWith (d :: r ++ y) "!--" = Bytes.startsWith (d :: r) "!--" :=
      startsWith_append (by omega) y
    cases state with
    | plain => simp only [scriptNext, hend, hescape]
    | escaped dashes =>
      simp only [scriptNext, hname]
      simp only [List.cons_append, hslash]
    | doubled dashes => simp only [scriptNext, hend]

theorem startsEndTag_of_scriptNext {skip : Nat} {state : ScriptState} {c : UInt8} {s : Bytes}
    (h : scriptNext skip state c s = none) : c = 60 ∧ startsEndTag "script" s = true := by
  have hangle (hc : (c == ('<' : Char).toUInt8) = true) : c = 60 := beq_iff_eq.mp hc
  unfold scriptNext at h
  cases state with
  | plain =>
    simp only [ite_eq_iff, reduceCtorEq, and_false, and_true, or_false, false_or] at h
    obtain ⟨-, hc, hend⟩ := h
    exact ⟨hangle hc, hend⟩
  | escaped dashes =>
    cases s with
    | nil => simp [ite_eq_iff] at h
    | cons d r =>
      simp only [ite_eq_iff, reduceCtorEq, and_false, and_true, or_false, false_or] at h
      obtain ⟨-, hc, hd, hname⟩ := h
      exact ⟨hangle hc, by rw [startsEndTag, hd, hname]; rfl⟩
  | doubled dashes => simp [ite_eq_iff] at h

theorem scriptLength_append {skip : Nat} {state : ScriptState} {u v : Bytes} {n : Nat}
    (h : scriptLength skip state (u ++ v) = n) (hn : n + 8 < u.length) (y : Bytes) :
    scriptLength skip state (u ++ y) = n := by
  induction u generalizing skip state n with
  | nil => simp at hn
  | cons c u ih =>
    rw [List.length_cons] at hn
    rw [List.cons_append, scriptLength_cons, scriptNext_append _ _ _ (by omega)] at h ⊢
    cases hnext : scriptNext skip state c u with
    | none => rwa [hnext] at h
    | some next =>
      rw [hnext, Option.elim_some] at h
      rw [Option.elim_some, ih rfl (by omega)]
      exact h

theorem rawTextLength_le (name s : Bytes) : rawTextLength name s ≤ s.length := by
  induction s with
  | nil => simp [rawTextLength]
  | cons c s ih =>
    rw [rawTextLength]
    split <;> simp only [List.length_cons] <;> omega

theorem scriptLength_le (skip : Nat) (state : ScriptState) (s : Bytes) :
    scriptLength skip state s ≤ s.length := by
  induction s generalizing skip state with
  | nil => simp [scriptLength]
  | cons c s ih =>
    rw [scriptLength_cons, List.length_cons]
    cases scriptNext skip state c s with
    | none => exact Nat.zero_le _
    | some next =>
      have := ih next.1 next.2
      rw [Option.elim_some]
      omega

/-- Raw text that ends before the content does stands in front of an end tag. -/
theorem rawTextLength_lt {name s : Bytes} (h : rawTextLength name s < s.length) :
    ∃ t, s.drop (rawTextLength name s) = 60 :: t ∧ startsEndTag name t = true := by
  induction s with
  | nil => simp at h
  | cons c s ih =>
    rw [rawTextLength] at h ⊢
    split at h
    · next hc =>
      rw [if_pos hc]
      simp only [Bool.and_eq_true] at hc
      exact ⟨s, by rw [List.drop_zero, beq_iff_eq.mp hc.1]; rfl, hc.2⟩
    · next hc =>
      rw [if_neg hc, Nat.add_comm, List.drop_succ_cons]
      exact ih (by rw [List.length_cons] at h; omega)

theorem scriptLength_lt {skip : Nat} {state : ScriptState} {s : Bytes}
    (h : scriptLength skip state s < s.length) :
    ∃ t, s.drop (scriptLength skip state s) = 60 :: t ∧ startsEndTag "script" t = true := by
  induction s generalizing skip state with
  | nil => simp at h
  | cons c s ih =>
    rw [scriptLength_cons] at h ⊢
    cases hnext : scriptNext skip state c s with
    | none =>
      obtain ⟨rfl, hend⟩ := startsEndTag_of_scriptNext hnext
      exact ⟨s, rfl, hend⟩
    | some next =>
      rw [hnext, Option.elim_some, List.length_cons] at h
      rw [Option.elim_some, Nat.add_comm, List.drop_succ_cons]
      exact ih (by omega)

/-- Bytes without an effect on the tree, whatever follows: a closed comment, or the end tag of a
void element. -/
def Inert (s : Bytes) : Prop := ∀ p y, marks none ⟨p, s ++ y⟩ = marks none ⟨p + s.length, y⟩

theorem inert_of_scanToken {u : Bytes} (hu : u ≠ [])
    (h : ∀ p y, scanToken ⟨p, u ++ y⟩ = (.comment, u.length)) : Inert u := by
  intro p y
  rw [marks, tokensFrom_append none hu (by simpa using h p y)]
  rfl

theorem inert_of_isVoid {tag : Bytes} (h : IsEndTag tag) (hvoid : isVoid (endTagName tag) = true) :
    Inert tag := by
  intro p y
  rw [marks_stop h, if_pos hvoid, List.nil_append]

theorem scanToken_dashes (p : Nat) (s : Bytes) :
    scanToken ⟨p, bytes "<!--" ++ s⟩ = (.comment, 4 + commentLength 0 true s) := by
  have h1 : bytes "<!--" ++ s = 60 :: 33 :: 45 :: 45 :: s := rfl
  have h2 : Bytes.startsWith (33 :: 45 :: 45 :: s) "!--" = true := by
    rw [Bytes.startsWith, List.isPrefixOf_iff_prefix]
    exact ⟨s, rfl⟩
  have h3 : Bytes.isLetter 33 = false := by decide
  simp only [h1, scanToken, opensMarkup, scanMarkup, h2, h3]
  rfl

/-- A closed comment. -/
theorem inert_comment {u v : Bytes} (hv : v ≠ []) (h : commentLength 0 true (u ++ v) = u.length) :
    Inert (bytes "<!--" ++ u) := by
  refine inert_of_scanToken (by simp [bytes]) fun p y => ?_
  rw [List.append_assoc, scanToken_dashes, commentLength_append hv h, List.length_append]
  rfl

theorem scanToken_slash {p : Nat} {b : UInt8} {s : Bytes} (hb : Bytes.isLetter b = false) :
    scanToken ⟨p, 60 :: 47 :: b :: s⟩ = (.comment, 2 + throughAngle (b :: s)) := by
  have h47 : Bytes.isLetter 47 = false := by decide
  simp [scanToken, opensMarkup, scanMarkup, h47, hb]

theorem inert_slash {b : UInt8} {u v : Bytes} (hb : Bytes.isLetter b = false) (hv : v ≠ [])
    (h : throughAngle (b :: u ++ v) = (b :: u).length) : Inert (60 :: 47 :: b :: u) := by
  refine inert_of_scanToken (by simp) fun p y => ?_
  have hscan := scanToken_slash (p := p) (s := u ++ y) hb
  rw [← List.cons_append, (throughAngle_append hv h y).1] at hscan
  refine hscan.trans (Prod.ext rfl ?_)
  simp only [List.length_cons]
  omega

theorem scanToken_bang {p : Nat} {d : UInt8} {s : Bytes} (hd : d = 33 ∨ d = 63)
    (hs : Bytes.startsWith (d :: s) "!--" = false) :
    scanToken ⟨p, 60 :: d :: s⟩ = (.comment, 1 + throughAngle (d :: s)) := by
  have h33 : Bytes.isLetter 33 = false := by decide
  have h63 : Bytes.isLetter 63 = false := by decide
  rcases hd with rfl | rfl <;> simp [scanToken, opensMarkup, scanMarkup, h33, h63, hs]

theorem inert_bang {d : UInt8} {u v : Bytes} (hd : d = 33 ∨ d = 63) (hv : v ≠ [])
    (hs : Bytes.startsWith (d :: u ++ v) "!--" = false)
    (h : throughAngle (d :: u ++ v) = (d :: u).length) : Inert (60 :: d :: u) := by
  have hlast := (throughAngle_append hv h []).2
  have hs' : ∀ y, Bytes.startsWith (d :: u ++ y) "!--" = false := by
    intro y
    rcases u with _ | ⟨e, _ | ⟨f, u⟩⟩
    · rcases hd with rfl | rfl <;> simp at hlast
    · have he : e = 62 := by simpa using hlast
      subst he
      have h45 : bytes "!--" = [33, 45, 45] := by decide
      simp [Bytes.startsWith, h45, List.isPrefixOf]
    · have hlong : (bytes "!--").length ≤ (d :: e :: f :: u).length := by
        have : (bytes "!--").length = 3 := by decide
        simp only [List.length_cons]
        omega
      rw [startsWith_append hlong] at hs ⊢
      exact hs
  refine inert_of_scanToken (by simp) fun p y => ?_
  have hscan := scanToken_bang (p := p) (s := u ++ y) hd (hs' y)
  rw [← List.cons_append, (throughAngle_append hv h y).1] at hscan
  refine hscan.trans (Prod.ext rfl ?_)
  simp only [List.length_cons]
  omega

end Codemod.Markup
