import Codemod.Markup.Token
import Mathlib.Data.List.TakeWhile
import Mathlib.Tactic.Common

namespace Codemod.Markup

/-- Where a reader stands inside a tag. -/
inductive TagState where
  | name
  /-- Between attributes. -/
  | gap
  /-- Between attributes, right behind a slash. -/
  | slash
  | key
  /-- In the white space behind an attribute name. -/
  | afterKey
  /-- Behind the equals sign. -/
  | beforeValue
  | quoted (quote : UInt8)
  | unquoted
  | closed (selfClosing : Bool)
  deriving DecidableEq, Repr

namespace TagState

/-- The state behind one more byte. -/
def step : TagState → UInt8 → TagState
  | name, b => if isSpace b then gap else if b == '/' then slash else if b == '>' then closed false else name
  | gap, b => if isSpace b then gap else if b == '/' then slash else if b == '>' then closed false else key
  | slash, b => if isSpace b then gap else if b == '/' then slash else if b == '>' then closed true else key
  | key, b =>
    if isSpace b then afterKey else if b == '/' then slash else if b == '>' then closed false
    else if b == '=' then beforeValue else key
  | afterKey, b =>
    if isSpace b then afterKey else if b == '/' then slash else if b == '>' then closed false
    else if b == '=' then beforeValue else key
  | beforeValue, b =>
    if isSpace b then beforeValue else if b == '>' then closed false
    else if isQuote b then quoted b else unquoted
  | quoted q, b => if b == q then gap else quoted q
  | unquoted, b => if isSpace b then gap else if b == '>' then closed false else unquoted
  | closed selfClosing, _ => closed selfClosing

/-- Read on to the end of the tag: whether it closes itself, and what follows it. -/
def finish (st : TagState) : Bytes → Option (Bool × Bytes)
  | [] => none
  | b :: s =>
    match st.step b with
    | closed selfClosing => some (selfClosing, s)
    | next => next.finish s

@[simp] theorem finish_nil (st : TagState) : st.finish [] = none := rfl

theorem finish_cons_closed {st : TagState} {b : UInt8} {selfClosing : Bool}
    (h : st.step b = closed selfClosing) (s : Bytes) : st.finish (b :: s) = some (selfClosing, s) := by
  simp [finish, h]

theorem finish_cons_open {st : TagState} {b : UInt8} (h : ∀ x, st.step b ≠ closed x) (s : Bytes) :
    st.finish (b :: s) = (st.step b).finish s := by
  rw [finish]
  split
  · next x hx => exact absurd hx (h x)
  · rfl

theorem isSpace_iff (b : UInt8) : isSpace b = true ↔ b = 32 ∨ b = 10 ∨ b = 13 ∨ b = 9 ∨ b = 12 := by
  simp only [isSpace, Bool.or_eq_true, beq_iff_eq, or_assoc]
  rfl

theorem isSpace_cases {b : UInt8} (h : isSpace b = true) : b = 32 ∨ b = 10 ∨ b = 13 ∨ b = 9 ∨ b = 12 :=
  (isSpace_iff b).mp h

/-- What follows a tag does not change how it is read. -/
theorem finish_append {st : TagState} {s r : Bytes} {selfClosing : Bool}
    (h : st.finish s = some (selfClosing, r)) (y : Bytes) :
    st.finish (s ++ y) = some (selfClosing, r ++ y) := by
  induction s generalizing st with
  | nil => simp at h
  | cons b s ih =>
    rw [finish] at h
    rw [List.cons_append, finish]
    split at h
    · cases h; rfl
    · exact ih h

theorem finish_length {st : TagState} {s r : Bytes} {selfClosing : Bool}
    (h : st.finish s = some (selfClosing, r)) : r.length < s.length := by
  induction s generalizing st with
  | nil => simp at h
  | cons b s ih =>
    rw [finish] at h
    split at h
    · cases h; simp
    · have := ih h
      simp only [List.length_cons]
      omega

/-- A tag that ends right before `y` ends there before anything else too. -/
theorem finish_of_append {st : TagState} {s y : Bytes} {selfClosing : Bool}
    (h : st.finish (s ++ y) = some (selfClosing, y)) : st.finish s = some (selfClosing, []) := by
  induction s generalizing st with
  | nil =>
    have hlen := finish_length h
    simp at hlen
  | cons b s ih =>
    rw [List.cons_append, finish] at h
    rw [finish]
    split at h
    · next x hx =>
      obtain ⟨hx', hs⟩ := Prod.mk.inj (Option.some.inj h)
      have : s = [] := List.eq_nil_of_length_eq_zero (by simpa using congrArg List.length hs)
      rw [hx', this]
    · exact ih h

/-- The bytes of a tag and those behind it. -/
theorem finish_split {st : TagState} {s r : Bytes} {selfClosing : Bool}
    (h : st.finish s = some (selfClosing, r)) :
    ∃ used, s = used ++ r ∧ st.finish used = some (selfClosing, []) := by
  have hsuffix : r <:+ s := by
    induction s generalizing st with
    | nil => simp at h
    | cons b s ih =>
      rw [finish] at h
      split at h
      · cases h; exact List.suffix_cons b _
      · exact (ih h).trans (List.suffix_cons b s)
  obtain ⟨used, rfl⟩ := hsuffix
  exact ⟨used, rfl, finish_of_append h⟩

/-- Bytes that keep the state are passed over. -/
theorem finish_dropWhile {st : TagState} {p : UInt8 → Bool} (hst : ∀ x, st ≠ closed x)
    (h : ∀ b, p b = true → st.step b = st) (s : Bytes) : st.finish (s.dropWhile p) = st.finish s := by
  induction s with
  | nil => rfl
  | cons b s ih =>
    by_cases hb : p b = true
    · rw [List.dropWhile_cons_of_pos hb, ih, finish_cons_open, h b hb]
      intro x
      rw [h b hb]
      exact hst x
    · rw [List.dropWhile_cons_of_neg hb]

end TagState

open TagState

theorem isSpace_head_dropWhile {p : UInt8 → Bool} {s r : Bytes} {b : UInt8} (h : s.dropWhile p = b :: r) :
    p b = false := by
  have := List.head?_dropWhile_not p s
  rw [h] at this
  simpa using this

/-- A cursor moves over what it skips. -/
theorem Cursor.skip_split (p : UInt8 → Bool) (c : Cursor) :
    ∃ used, c.rest = used ++ (c.skip p).rest ∧ (c.skip p).pos = c.pos + used.length ∧
      (∀ b ∈ used, p b = true) ∧ used = c.rest.takeWhile p :=
  ⟨c.rest.takeWhile p, List.takeWhile_append_dropWhile.symm, rfl,
    fun _ h => List.mem_takeWhile_imp h, rfl⟩

namespace TagState

theorem step_gap_of_not_space {b : UInt8} (h1 : isSpace b = false) (h2 : (b == ('/' : Char).toUInt8) = false)
    (h3 : (b == ('>' : Char).toUInt8) = false) : gap.step b = key := by
  simp [step, h1, h2, h3]

theorem key_finish_eq (s : Bytes) : key.finish s = afterKey.finish (s.dropWhile isSpace) := by
  have hsame : key.finish s = afterKey.finish s := by
    cases s with
    | nil => rfl
    | cons b s => simp [finish, step]
  rw [hsame]
  exact (finish_dropWhile (by simp) (fun b hb => by simp [step, hb]) s).symm

theorem key_finish_dropWhile (s : Bytes) : key.finish (s.dropWhile (!isKeyEnd ·)) = key.finish s := by
  refine finish_dropWhile (by simp) ?_ s
  intro b hb
  simp only [isKeyEnd, isNameEnd, Bool.not_eq_true', Bool.or_eq_false_iff] at hb
  simp [step, hb]

theorem beforeValue_finish_dropWhile (s : Bytes) :
    beforeValue.finish (s.dropWhile isSpace) = beforeValue.finish s :=
  finish_dropWhile (by simp) (fun b hb => by simp [step, hb]) s

theorem quoted_finish_dropWhile (q : UInt8) (s : Bytes) :
    (quoted q).finish (s.dropWhile (· != q)) = (quoted q).finish s :=
  finish_dropWhile (by simp) (fun b hb => by simp [step] at hb ⊢; exact hb) s

theorem unquoted_finish_dropWhile (s : Bytes) :
    unquoted.finish (s.dropWhile (!isValueEnd ·)) = unquoted.finish s := by
  refine finish_dropWhile (by simp) ?_ s
  intro b hb
  simp only [isValueEnd, Bool.not_eq_true', Bool.or_eq_false_iff] at hb
  simp [step, hb]

theorem gap_finish_dropWhile (s : Bytes) : gap.finish (s.dropWhile isSpace) = gap.finish s :=
  finish_dropWhile (by simp) (fun b hb => by simp [step, hb]) s

end TagState

/-- A cursor stops in front of what it does not skip. -/
theorem Cursor.skip_head (f : UInt8 → Bool) (c : Cursor) : ∀ b ∈ (c.skip f).rest.head?, f b = false := by
  intro b hb
  obtain ⟨r, hr⟩ := List.head?_eq_some_iff.mp hb
  exact isSpace_head_dropWhile hr

/-- The bytes at a cursor up to the first that fails the test. -/
theorem Cursor.skip_append {f : UInt8 → Bool} {s r : Bytes} {p : Nat} (hs : ∀ b ∈ s, f b = true)
    (hr : ∀ b ∈ r.head?, f b = false) : Cursor.skip f ⟨p, s ++ r⟩ = ⟨p + s.length, r⟩ := by
  have htake : r.takeWhile f = [] ∧ r.dropWhile f = r := by
    cases r with
    | nil => exact ⟨rfl, rfl⟩
    | cons b r => simp [hr b rfl]
  simp only [Cursor.skip, List.takeWhile_append_of_pos hs, List.dropWhile_append_of_pos hs, htake, List.append_nil]

theorem toUInt8_equals : ('=' : Char).toUInt8 = 61 := rfl

/-- An equals sign with the white space around it. -/
def IsSign (s : Bytes) : Prop :=
  ∃ before after, s = before ++ 61 :: after ∧ (∀ b ∈ before, isSpace b = true) ∧ ∀ b ∈ after, isSpace b = true

/-- The white space around a sign that a cursor comes to. -/
theorem IsSign.exists_of_skip {c : Cursor} {r : Bytes} (h : (c.skip isSpace).rest = 61 :: r) :
    ∃ sign, IsSign sign ∧ c.rest = sign ++ (Cursor.skip isSpace ⟨(c.skip isSpace).pos + 1, r⟩).rest ∧
      (Cursor.skip isSpace ⟨(c.skip isSpace).pos + 1, r⟩).pos = c.pos + sign.length := by
  obtain ⟨before, hbefore, hpos, hspaces, -⟩ := c.skip_split isSpace
  obtain ⟨after, hafter, hpos', hspaces', -⟩ := Cursor.skip_split isSpace ⟨(c.skip isSpace).pos + 1, r⟩
  refine ⟨before ++ 61 :: after, ⟨before, after, rfl, hspaces, hspaces'⟩, ?_, ?_⟩
  · rw [hbefore, h]
    simpa using hafter
  · simp only [List.length_append, List.length_cons] at hpos' ⊢
    omega

theorem not_isSpace_of_isQuote {q : UInt8} (h : isQuote q = true) : isSpace q = false := by
  simp only [isQuote, Bool.or_eq_true, beq_iff_eq] at h
  rcases h with rfl | rfl <;> decide

/-- What a reader takes for the value of an attribute whose name ends at `p`, in front of `rest`: a slash or white
space without one, or a sign with a value in matching quotes, without quotes, or missing in front of the bracket. -/
inductive ValueText (p : Nat) (rest : Bytes) : Bytes → Span → Prop
  | slash {blank : Bytes} : (∀ b ∈ blank, isSpace b = true) → ValueText p rest (blank ++ [47]) ⟨p, p⟩
  | bare {blank : Bytes} : (∀ b ∈ blank, isSpace b = true) → rest ≠ [] →
      (∀ x ∈ rest.head?, isSpace x = false ∧ x ≠ 61) → ValueText p rest blank ⟨p, p⟩
  | missing {sign : Bytes} : IsSign sign → rest.head? = some 62 → ValueText p rest sign ⟨p, p⟩
  | quoted {sign inner : Bytes} {q : UInt8} : IsSign sign → isQuote q = true → q ∉ inner →
      ValueText p rest (sign ++ q :: (inner ++ [q])) ⟨p + sign.length + 1, p + sign.length + 1 + inner.length⟩
  | unquoted {sign inner : Bytes} {x : UInt8} : IsSign sign → isQuote x = false →
      (∀ b ∈ x :: inner, isValueEnd b = false) → (∀ b ∈ rest.head?, isValueEnd b = true) →
      ValueText p rest (sign ++ x :: inner) ⟨p + sign.length, p + sign.length + (x :: inner).length⟩

/-- A value is read in one of these ways. -/
theorem readValue_cases {c next : Cursor} {v : Span} (h : readValue c = some (v, next)) :
    ∃ used, c.rest = used ++ next.rest ∧ next.pos = c.pos + used.length ∧ ValueText c.pos next.rest used v := by
  obtain ⟨blank, hblank, hbpos, hbsp, -⟩ := c.skip_split isSpace
  have hspace := Cursor.skip_head isSpace c
  unfold readValue at h
  dsimp only at h
  split at h
  · contradiction
  next x r hx =>
  rw [hx] at hblank hspace
  split at h
  · next hslash =>
    obtain rfl : x = 47 := beq_iff_eq.mp hslash
    cases h
    exact ⟨blank ++ [47], by simp [hblank], by simp [hbpos, Nat.add_assoc], .slash hbsp⟩
  next hslash =>
  split at h
  · next hsign =>
    cases h
    have hhead : ∀ y ∈ (x :: r).head?, isSpace y = false ∧ y ≠ 61 := by
      rintro y ⟨⟩
      exact ⟨hspace x rfl, by simpa [toUInt8_equals] using hsign⟩
    rw [← hx] at hhead
    exact ⟨blank, hx ▸ hblank, hbpos, .bare hbsp (by simp [hx]) hhead⟩
  next hsign =>
  obtain rfl : x = 61 := by simpa [toUInt8_equals] using hsign
  obtain ⟨sign, hsgn, hfirst, hfpos⟩ := IsSign.exists_of_skip hx
  have hhead := Cursor.skip_head isSpace ⟨(c.skip isSpace).pos + 1, r⟩
  generalize Cursor.skip isSpace ⟨(c.skip isSpace).pos + 1, r⟩ = first at *
  split at h
  · contradiction
  next q s hq =>
  split at h
  · next hgt =>
    obtain rfl : q = 62 := beq_iff_eq.mp hgt
    cases h
    exact ⟨sign, hfirst, hfpos, .missing hsgn (by rw [hq]; rfl)⟩
  next hgt =>
  split at h
  · next hquote =>
    obtain ⟨inner, hinner, hipos, hnot, -⟩ := Cursor.skip_split (· != q) ⟨first.pos + 1, s⟩
    split at h
    · contradiction
    next y t hy =>
    obtain rfl : y = q := by simpa using isSpace_head_dropWhile (p := (· != q)) hy
    cases h
    rw [hy] at hinner
    refine ⟨sign ++ y :: (inner ++ [y]), ?_, ?_, ?_⟩
    · rw [hfirst, hq]
      simpa using hinner
    · simp only [List.length_append, List.length_cons, List.length_nil] at hipos ⊢
      omega
    · rw [hipos, hfpos]
      exact .quoted hsgn hquote fun hmem => by simpa using hnot y hmem
  next hquote =>
  cases h
  obtain ⟨inner, hinner, hipos, hin, -⟩ := first.skip_split (!isValueEnd ·)
  have hend : ∀ b ∈ (first.skip (!isValueEnd ·)).rest.head?, isValueEnd b = true := fun b hb => by
    simpa using Cursor.skip_head (!isValueEnd ·) first b hb
  have hq' : isValueEnd q = false := by
    have hspace : isSpace q = false := hhead q (by rw [hq]; rfl)
    rw [isValueEnd, hspace, Bool.false_or]
    exact Bool.eq_false_iff.mpr hgt
  cases inner with
  | nil =>
    rw [List.nil_append, hq] at hinner
    rw [← hinner] at hend
    rw [hend q rfl] at hq'
    cases hq'
  | cons x inner =>
    rw [hq] at hinner
    obtain ⟨rfl, -⟩ := List.cons.inj hinner
    refine ⟨sign ++ q :: inner, ?_, ?_, ?_⟩
    · rw [hfirst, hq, hinner, List.append_assoc]
    · rw [hipos, hfpos, List.length_append, Nat.add_assoc]
    · rw [hipos, hfpos]
      exact .unquoted hsgn (Bool.eq_false_iff.mpr hquote) (fun b hb => by simpa using hin b hb) hend

namespace TagState

theorem afterKey_finish_dropWhile (s : Bytes) : afterKey.finish (s.dropWhile isSpace) = afterKey.finish s :=
  finish_dropWhile (by simp) (fun b hb => by simp [step, hb]) s

theorem beforeValue_finish_blank {blank : Bytes} (h : ∀ b ∈ blank, isSpace b = true) (s : Bytes) :
    beforeValue.finish (blank ++ s) = beforeValue.finish s := by
  rw [← beforeValue_finish_dropWhile, List.dropWhile_append_of_pos h, beforeValue_finish_dropWhile]

theorem key_finish_blank {blank : Bytes} (h : ∀ b ∈ blank, isSpace b = true) (s : Bytes) :
    key.finish (blank ++ s) = afterKey.finish s := by
  rw [key_finish_eq, List.dropWhile_append_of_pos h, afterKey_finish_dropWhile]

theorem key_finish_sign {sign : Bytes} (h : IsSign sign) (s : Bytes) : key.finish (sign ++ s) = beforeValue.finish s := by
  obtain ⟨before, after, rfl, hbefore, hafter⟩ := h
  have h61 : afterKey.step 61 = beforeValue := by decide
  rw [List.append_assoc, key_finish_blank hbefore, List.cons_append, finish_cons_open (by simp [h61]), h61,
    beforeValue_finish_blank hafter]

/-- A value without quotes ends where the gap goes on. -/
theorem unquoted_finish_gap {rest : Bytes} (h : ∀ b ∈ rest.head?, isValueEnd b = true) :
    unquoted.finish rest = gap.finish rest := by
  cases rest with
  | nil => rfl
  | cons b s =>
    have hb := h b rfl
    simp only [isValueEnd, Bool.or_eq_true, beq_iff_eq] at hb
    by_cases hspace : isSpace b = true
    · simp [finish, step, hspace]
    · obtain rfl : b = 62 := hb.resolve_left hspace
      have h1 : unquoted.step 62 = closed false := by decide
      have h2 : gap.step 62 = closed false := by decide
      rw [finish_cons_closed h1, finish_cons_closed h2]

end TagState

/-- Reading one attribute from its first byte on, `v` being the range of its value. The state
behind it is `slash` if a slash ended it. -/
structure AttributeRead (c next : Cursor) (v : Span) (st : TagState) (used : Bytes) : Prop where
  split : c.rest = used ++ next.rest
  pos : next.pos = c.pos + used.length
  nonempty : used ≠ []
  value : v.stop ≤ next.pos
  state : st = gap ∨ st = slash
  finish : gap.finish c.rest = st.finish next.rest
  last : st = slash ↔ used.getLast? = some 47 ∧ v.stop ≠ next.pos

theorem Cursor.skipKey_slash {p : Nat} {r : Bytes} : Cursor.skipKey ⟨p, 47 :: r⟩ = ⟨p, 47 :: r⟩ := by
  have h1 : isKeyEnd 47 = true := by decide
  have h2 : ((47 : UInt8) == ('=' : Char).toUInt8) = false := by decide
  simp [Cursor.skipKey, Cursor.skip, h1, h2]

theorem Cursor.skipKey_of_not_slash {p : Nat} {x : UInt8} {r : Bytes} (h1 : isSpace x = false)
    (h2 : x ≠ 62) (h3 : x ≠ 47) :
    Cursor.skipKey ⟨p, x :: r⟩ = Cursor.skip (!isKeyEnd ·) ⟨p + 1, r⟩ := by
  by_cases he : x = 61
  · subst he
    have : ((61 : UInt8) == ('=' : Char).toUInt8) = true := by decide
    simp [Cursor.skipKey, this]
  · have hk : isKeyEnd x = false := by
      simp only [isKeyEnd, isNameEnd, h1, Bool.false_or, Bool.or_eq_false_iff, beq_eq_false_iff_ne]
      exact ⟨⟨h3, h2⟩, he⟩
    have he' : (x == ('=' : Char).toUInt8) = false := beq_eq_false_iff_ne.mpr he
    simp [Cursor.skipKey, he', Cursor.skip, hk]
    omega

theorem getLast?_append_ne {a b : Bytes} {z : UInt8} (hb : b ≠ []) :
    (a ++ b).getLast? = some z ↔ b.getLast? = some z := by
  rw [List.getLast?_append]
  cases h : b.getLast? with
  | none => exact absurd (List.getLast?_eq_none_iff.mp h) hb
  | some y => simp

theorem ne_slash_of_getLast? {s : Bytes} {p : UInt8 → Bool} (h : ∀ b ∈ s, p b = true)
    (hp : p 47 = false) : s.getLast? ≠ some 47 := by
  intro hs
  have := h 47 (List.mem_of_getLast? hs)
  simp [hp] at this

theorem IsSign.ne_slash {sign : Bytes} (h : IsSign sign) : sign.getLast? ≠ some 47 := by
  obtain ⟨before, after, rfl, -, hafter⟩ := h
  rw [Ne, getLast?_append_ne (by simp)]
  cases after with
  | nil => decide
  | cons y ys =>
    rw [List.getLast?_cons_cons]
    exact ne_slash_of_getLast? hafter (by decide)

/-- The state machine follows the reading of a value. It is behind a slash just where the value is one. -/
theorem TagState.key_finish_value {p : Nat} {rest used : Bytes} {v : Span} (h : ValueText p rest used v) :
    ∃ st, (st = gap ∨ st = slash) ∧ key.finish (used ++ rest) = st.finish rest ∧ v.stop ≤ p + used.length ∧
      (st = slash ↔ used.getLast? = some 47 ∧ v.stop ≠ p + used.length) := by
  cases h with
  | @slash blank hblank =>
    have h47 : afterKey.step 47 = slash := by decide
    refine ⟨slash, Or.inr rfl, ?_, Nat.le_add_right .., ?_⟩
    · rw [List.append_assoc, key_finish_blank hblank, List.singleton_append, finish_cons_open (by simp [h47]), h47]
    · simp
  | bare hblank hne hhead =>
    refine ⟨gap, Or.inl rfl, ?_, Nat.le_add_right .., ?_⟩
    · obtain ⟨x, r, rfl⟩ := List.exists_cons_of_ne_nil hne
      obtain ⟨hspace, hsign⟩ := hhead x rfl
      have hsign' : (x == ('=' : Char).toUInt8) = false := beq_eq_false_iff_ne.mpr hsign
      rw [key_finish_blank hblank]
      simp [finish, step, hspace, hsign']
    · simp [ne_slash_of_getLast? hblank (by decide)]
  | missing hsign hhead =>
    refine ⟨gap, Or.inl rfl, ?_, Nat.le_add_right .., ?_⟩
    · obtain ⟨r, rfl⟩ := List.head?_eq_some_iff.mp hhead
      have h1 : beforeValue.step 62 = closed false := by decide
      have h2 : gap.step 62 = closed false := by decide
      rw [key_finish_sign hsign, finish_cons_closed h1, finish_cons_closed h2]
    · simp [hsign.ne_slash]
  | @quoted sign inner q hsign hquote hinner =>
    have hq47 : q ≠ 47 := by
      rintro rfl
      exact absurd hquote (by decide)
    refine ⟨gap, Or.inl rfl, ?_, ?_, ?_⟩
    · have hspace := not_isSpace_of_isQuote hquote
      have hgt : (q == ('>' : Char).toUInt8) = false := by
        rw [beq_eq_false_iff_ne]
        rintro rfl
        exact absurd hquote (by decide)
      have hopen : beforeValue.step q = quoted q := by simp [step, hspace, hgt, hquote]
      have hclose : (quoted q).step q = gap := by simp [step]
      have hdrop : List.dropWhile (· != q) (inner ++ q :: rest) = q :: rest := by
        rw [List.dropWhile_append_of_pos fun b hb => bne_iff_ne.mpr (ne_of_mem_of_not_mem hb hinner)]
        simp
      have hused : sign ++ q :: (inner ++ [q]) ++ rest = sign ++ q :: (inner ++ q :: rest) := by simp
      rw [hused, key_finish_sign hsign, finish_cons_open (by simp [hopen]), hopen, ← quoted_finish_dropWhile, hdrop,
        finish_cons_open (by simp [hclose]), hclose]
    · simp only [List.length_append, List.length_cons, List.length_nil]
      omega
    · rw [getLast?_append_ne (by simp), ← List.cons_append, getLast?_append_ne (by simp)]
      simp [hq47]
  | @unquoted sign inner x hsign hquote hinner hend =>
    refine ⟨gap, Or.inl rfl, ?_, ?_, ?_⟩
    · have hx := hinner x (List.mem_cons_self ..)
      simp only [isValueEnd, Bool.or_eq_false_iff] at hx
      have hopen : beforeValue.finish (x :: inner ++ rest) = unquoted.finish (x :: inner ++ rest) := by
        simp [finish, step, hx, hquote]
      have hdrop : List.dropWhile (!isValueEnd ·) (x :: inner ++ rest) = rest.dropWhile (!isValueEnd ·) :=
        List.dropWhile_append_of_pos fun b hb => by simp [hinner b hb]
      rw [List.append_assoc, key_finish_sign hsign, hopen, ← unquoted_finish_dropWhile, hdrop, unquoted_finish_dropWhile,
        unquoted_finish_gap hend]
    · rw [List.length_append, Nat.add_assoc]
    · simp [Nat.add_assoc]

theorem readValue_slash {p : Nat} {r : Bytes} : readValue ⟨p, 47 :: r⟩ = some (⟨p, p⟩, ⟨p + 1, r⟩) := by
  have hskip : Cursor.skip isSpace ⟨p, 47 :: r⟩ = ⟨p, 47 :: r⟩ :=
    Cursor.skip_append (s := []) (by simp) (by rintro b ⟨⟩; decide)
  simp only [readValue, hskip]
  rfl

/-- The state machine follows the reading of one attribute. -/
theorem readValue_skipKey {c next : Cursor} {x : UInt8} {r : Bytes} {v : Span} (hc : c.rest = x :: r)
    (hx : isSpace x = false) (hgt : x ≠ 62) (h : readValue c.skipKey = some (v, next)) :
    ∃ st used, AttributeRead c next v st used := by
  obtain ⟨p, s⟩ := c
  dsimp only at hc
  subst hc
  by_cases hslash : x = 47
  · subst hslash
    rw [Cursor.skipKey_slash, readValue_slash] at h
    have h2 : gap.step 47 = slash := by decide
    cases h
    refine ⟨slash, [47], rfl, rfl, by simp, by simp, Or.inr rfl, ?_, by simp⟩
    rw [finish_cons_open (by simp [h2]), h2]
  · rw [Cursor.skipKey_of_not_slash hx hgt hslash] at h
    obtain ⟨name, hname, hnpos, hnin, -⟩ := Cursor.skip_split (!isKeyEnd ·) ⟨p + 1, r⟩
    obtain ⟨used, hsplit, hpos, htext⟩ := readValue_cases h
    obtain ⟨st, hst, hfin, hv, hlast⟩ := key_finish_value htext
    rw [← hpos] at hv hlast
    have hns : (x == ('/' : Char).toUInt8) = false := beq_eq_false_iff_ne.mpr hslash
    have hng : (x == ('>' : Char).toUInt8) = false := beq_eq_false_iff_ne.mpr hgt
    have hgap : gap.step x = key := step_gap_of_not_space hx hns hng
    have hname47 : (x :: name).getLast? ≠ some 47 := by
      intro hl
      rcases List.mem_cons.mp (List.mem_of_getLast? hl) with h47 | h47
      · exact hslash h47.symm
      · exact absurd (hnin 47 h47) (by decide)
    refine ⟨st, x :: name ++ used, ?_, ?_, by simp, hv, hst, ?_, ?_⟩
    · simp only [List.cons_append, List.append_assoc, ← hsplit]
      rw [← hname]
    · simp only [List.length_append, List.length_cons] at hnpos ⊢
      omega
    · rw [finish_cons_open (by simp [hgap]), hgap, ← hfin, ← hsplit, ← key_finish_dropWhile]
      rfl
    · by_cases hu : used = []
      · have hgap : st ≠ slash := by simpa [hu] using hlast
        rw [hu, List.append_nil]
        exact ⟨fun h => absurd h hgap, fun h => absurd h.1 hname47⟩
      · rw [getLast?_append_ne hu]
        exact hlast

theorem readValue_eq_none {c : Cursor} (h : readValue c = none) : key.finish c.rest = none := by
  unfold readValue at h
  dsimp only at h
  split at h
  · next hx =>
    have hdrop : c.rest.dropWhile isSpace = [] := hx
    rw [key_finish_eq, hdrop]
    rfl
  next x r hx =>
  split at h
  · cases h
  split at h
  · cases h
  next heq =>
  obtain rfl : x = 61 := by simpa [toUInt8_equals] using heq
  obtain ⟨sign, hsign, hfirst, -⟩ := IsSign.exists_of_skip hx
  have hhead := Cursor.skip_head isSpace ⟨(c.skip isSpace).pos + 1, r⟩
  rw [hfirst, key_finish_sign hsign]
  generalize Cursor.skip isSpace ⟨(c.skip isSpace).pos + 1, r⟩ = first at *
  split at h
  · next hq => rw [hq]; rfl
  next q s hq =>
  rw [hq] at hhead
  split at h
  · cases h
  next hgt =>
  split at h
  · next hquote =>
    have hq62 : (q == ('>' : Char).toUInt8) = false := by simpa using hgt
    have h1 : beforeValue.step q = quoted q := by simp [step, hhead q rfl, hq62, hquote]
    split at h
    · next hy =>
      have hd : List.dropWhile (· != q) s = [] := hy
      rw [hq, finish_cons_open (by simp [h1]), h1, ← quoted_finish_dropWhile, hd]
      rfl
    · cases h
  · cases h

theorem readValue_skipKey_none {c : Cursor} {x : UInt8} {r : Bytes} (hc : c.rest = x :: r)
    (hx : isSpace x = false) (hgt : x ≠ 62) (h : readValue c.skipKey = none) :
    gap.finish c.rest = none := by
  obtain ⟨p, s⟩ := c
  dsimp only at hc
  subst hc
  by_cases hslash : x = 47
  · subst hslash
    rw [Cursor.skipKey_slash, readValue_slash] at h
    cases h
  · rw [Cursor.skipKey_of_not_slash hx hgt hslash] at h
    have hns : (x == ('/' : Char).toUInt8) = false := beq_eq_false_iff_ne.mpr hslash
    have hng : (x == ('>' : Char).toUInt8) = false := beq_eq_false_iff_ne.mpr hgt
    have hgap : gap.step x = key := step_gap_of_not_space hx hns hng
    rw [finish_cons_open (by simp [hgap]), hgap, ← key_finish_dropWhile]
    exact readValue_eq_none h

/-- White space behind a slash is forgotten, and so is the slash. -/
theorem finish_skip_space {st : TagState} (hst : st = gap ∨ st = slash) (s : Bytes) :
    st.finish s = (if s.head?.any isSpace then gap else st).finish (s.dropWhile isSpace) := by
  rcases hst with rfl | rfl
  · rw [ite_self, gap_finish_dropWhile]
  · cases s with
    | nil => rfl
    | cons b s =>
      by_cases hb : isSpace b = true
      · have h0 : slash.step b = gap := by simp [step, hb]
        rw [finish_cons_open (by simp [h0]), h0, List.dropWhile_cons_of_pos hb]
        simp [hb, gap_finish_dropWhile]
      · rw [List.dropWhile_cons_of_neg hb]
        simp [hb]

theorem finish_of_not_gt {st : TagState} (hst : st = gap ∨ st = slash) {x : UInt8} (hx : x ≠ 62) (r : Bytes) :
    st.finish (x :: r) = gap.finish (x :: r) := by
  rcases hst with rfl | rfl
  · rfl
  · have hgt : (x == ('>' : Char).toUInt8) = false := beq_eq_false_iff_ne.mpr hx
    simp [finish, step, hgt]

theorem dropLast_append_getLast? {a b : Bytes} (hb : b.dropLast ≠ []) :
    (a ++ b).dropLast.getLast? = b.dropLast.getLast? := by
  have hne : b ≠ [] := by rintro rfl; exact hb rfl
  rw [List.dropLast_append_of_ne_nil hne, List.getLast?_append, List.getLast?_eq_some_getLast hb,
    Option.some_or]

/-- Reading attributes up to the end of the tag, `last` being where the last value ended and
`before` what was read before. A slash in front of the bracket counts if no value ends with it. -/
structure AttributesRead (c next : Cursor) (attrs : List Extent) (st : TagState) (before : Bytes)
    (last : Option Nat) (used : Bytes) (selfClosing : Bool) : Prop where
  split : c.rest = used ++ next.rest
  pos : next.pos = c.pos + used.length
  stop : used.getLast? = some 62
  finish : st.finish c.rest = some (selfClosing, next.rest)
  slash : selfClosing = true ↔ (before ++ used).dropLast.getLast? = some 47 ∧
    ∀ s ∈ (attrs.getLast?.map (·.value.stop)).or last, s + 1 ≠ next.pos

/-- The end of the tag is reached: what was read before decides whether a slash closes it. -/
theorem AttributesRead.end {c : Cursor} {r : Bytes} {st : TagState} {before : Bytes} {last : Option Nat}
    (hst : st = gap ∨ st = TagState.slash)
    (hbefore : c.rest.head? = some 62 →
      (st = TagState.slash ↔ before.getLast? = some 47 ∧ ∀ s ∈ last, s ≠ c.pos))
    (hr : (c.skip isSpace).rest = 62 :: r) :
    ∃ used selfClosing,
      AttributesRead c ⟨(c.skip isSpace).pos + 1, r⟩ [] st before last used selfClosing := by
  obtain ⟨blank, hblank, hpos, hsp, -⟩ := c.skip_split isSpace
  rw [hr] at hblank
  have hfin := finish_skip_space hst c.rest
  have hdrop : c.rest.dropWhile isSpace = 62 :: r := hr
  have hg : gap.step 62 = closed false := by decide
  have hs : TagState.slash.step 62 = closed true := by decide
  cases blank with
  | nil =>
    have hc : c.rest = 62 :: r := by simpa using hblank
    have hslash := hbefore (by rw [hc]; rfl)
    have h62 : isSpace 62 = false := by decide
    rw [hdrop, hc] at hfin
    simp only [List.length_nil, Nat.add_zero] at hpos
    refine ⟨[62], decide (st = TagState.slash), by simp [hc], by simp [hpos], rfl, ?_, ?_⟩
    · rw [hc]
      rcases hst with rfl | rfl
      · exact finish_cons_closed hg r
      · exact finish_cons_closed hs r
    · rw [decide_eq_true_iff, hslash, hpos]
      simp
  | cons b bs =>
    have hb : isSpace b = true := hsp b (by simp)
    have hne : (b :: bs).getLast? ≠ some 47 := ne_slash_of_getLast? hsp (by decide)
    refine ⟨b :: bs ++ [62], false, by simp [hblank], by simp [hpos, Nat.add_assoc], by rw [List.getLast?_concat], ?_, ?_⟩
    · rw [hfin, hdrop]
      have hhead : c.rest.head?.any isSpace = true := by rw [hblank]; simp [hb]
      rw [if_pos hhead]
      exact finish_cons_closed hg r
    · rw [← List.append_assoc, List.dropLast_concat, getLast?_append_ne (by simp)]
      exact ⟨fun h => absurd h (by simp), fun h => absurd h.1 hne⟩

/-- What reading attributes does first: end, fail, or read one attribute and go on. -/
theorem readAttrs_cases (c : Cursor) :
    ((c.skip isSpace).rest = [] ∧ readAttrs c = none) ∨
    (∃ r, (c.skip isSpace).rest = 62 :: r ∧ readAttrs c = some ([], ⟨(c.skip isSpace).pos + 1, r⟩)) ∨
    (∃ x r, (c.skip isSpace).rest = x :: r ∧ isSpace x = false ∧ x ≠ 62 ∧
      readValue (c.skip isSpace).skipKey = none ∧ readAttrs c = none) ∨
    ∃ x r v next, (c.skip isSpace).rest = x :: r ∧ isSpace x = false ∧ x ≠ 62 ∧
      readValue (c.skip isSpace).skipKey = some (v, next) ∧
      readAttrs c = (readAttrs next).map fun (attrs, last) =>
        (if (c.skip isSpace).pos = (c.skip isSpace).skipKey.pos then attrs
          else ⟨⟨(c.skip isSpace).pos, (c.skip isSpace).skipKey.pos⟩, v⟩ :: attrs, last) := by
  rw [readAttrs]
  split
  · next hk => exact Or.inl ⟨hk, rfl⟩
  next x r hk =>
  have hxs : isSpace x = false := isSpace_head_dropWhile hk
  split
  · next hx =>
    have hx62 : x = 62 := beq_iff_eq.mp hx
    subst hx62
    exact Or.inr (Or.inl ⟨r, hk, rfl⟩)
  next hx =>
  have hx62 : x ≠ 62 := fun h => hx (by subst h; decide)
  dsimp only
  split
  · next hv => exact Or.inr (Or.inr (Or.inl ⟨x, r, hk, hxs, hx62, hv, rfl⟩))
  next v next hv =>
  refine Or.inr (Or.inr (Or.inr ⟨x, r, v, next, hk, hxs, hx62, hv, ?_⟩))
  cases readAttrs next with
  | none => rfl
  | some read =>
    simp only [Option.map_some]
    split <;> rfl

/-- An attribute without a name is a slash, and no value ends with it. -/
theorem readValue_skipKey_nameless {c next : Cursor} {x : UInt8} {r : Bytes} {v : Span} (hc : c.rest = x :: r)
    (hx : isSpace x = false) (hgt : x ≠ 62) (hpos : c.pos = c.skipKey.pos)
    (h : readValue c.skipKey = some (v, next)) : v.stop ≠ next.pos := by
  obtain ⟨p, s⟩ := c
  dsimp only at hc
  subst hc
  by_cases hslash : x = 47
  · subst hslash
    rw [Cursor.skipKey_slash, readValue_slash] at h
    cases h
    simp
  · rw [Cursor.skipKey_of_not_slash hx hgt hslash] at hpos
    simp only [Cursor.skip] at hpos
    omega

/-- The end of the last value behind an attribute: a bare slash is no attribute, so it stays where it was. -/
def lastStop (c : Cursor) (v : Span) (last : Option Nat) : Option Nat :=
  if c.pos = c.skipKey.pos then last else some v.stop

theorem AttributeRead.lastStop_le {c next : Cursor} {v : Span} {st : TagState} {used : Bytes} {last : Option Nat}
    (hread : AttributeRead c next v st used) (hlast : ∀ s ∈ last, s ≤ c.pos) : ∀ s ∈ lastStop c v last, s ≤ next.pos := by
  have hpos := hread.pos
  intro s hs
  unfold lastStop at hs
  split at hs
  · have := hlast s hs
    omega
  · cases hs
    exact hread.value

/-- The reader stands behind a slash just where one was read that no value ends with. -/
theorem AttributeRead.slash_iff {c next : Cursor} {x : UInt8} {r : Bytes} {v : Span} {st : TagState} {used : Bytes}
    {last : Option Nat} (hread : AttributeRead c next v st used) (hc : c.rest = x :: r) (hx : isSpace x = false)
    (hgt : x ≠ 62) (hv : readValue c.skipKey = some (v, next)) (hlast : ∀ s ∈ last, s ≤ c.pos) :
    st = slash ↔ used.getLast? = some 47 ∧ ∀ s ∈ lastStop c v last, s ≠ next.pos := by
  have hpos := hread.pos
  have hlong := List.length_pos_iff.mpr hread.nonempty
  rw [hread.last]
  unfold lastStop
  split
  · next hname =>
    have hv47 := readValue_skipKey_nameless hc hx hgt hname hv
    have hne : ∀ s ∈ last, s ≠ next.pos := fun s hs => by
      have := hlast s hs
      omega
    exact ⟨fun h => ⟨h.1, hne⟩, fun h => ⟨h.1, hv47⟩⟩
  · simp

/-- One attribute, and the others behind it. -/
theorem AttributesRead.cons {c next stop : Cursor} {v : Span} {attrs : List Extent} {st st' : TagState}
    {before used used' : Bytes} {last : Option Nat} {selfClosing : Bool}
    (hread : AttributeRead (c.skip isSpace) next v st' used) (hkey : st.finish c.rest = gap.finish (c.skip isSpace).rest)
    (hothers : AttributesRead next stop attrs st' used (lastStop (c.skip isSpace) v last) used' selfClosing) :
    ∃ used, AttributesRead c stop (if (c.skip isSpace).pos = (c.skip isSpace).skipKey.pos then attrs
      else ⟨⟨(c.skip isSpace).pos, (c.skip isSpace).skipKey.pos⟩, v⟩ :: attrs) st before last used selfClosing := by
  obtain ⟨blank, hblank, hpos, -, -⟩ := c.skip_split isSpace
  have hnpos := hread.pos
  refine ⟨blank ++ used ++ used', ?_, ?_, ?_, ?_, ?_⟩
  · rw [hblank, hread.split, hothers.split]
    simp
  · rw [hothers.pos, hnpos, hpos]
    simp only [List.length_append]
    omega
  · rw [List.getLast?_append, hothers.stop]
    rfl
  · rw [hkey, hread.finish, hothers.finish]
  · have hne' : used' ≠ [] := fun h => by
      have := hothers.stop
      simp [h] at this
    have hlong : (used ++ used').dropLast ≠ [] := by
      rw [List.dropLast_append_of_ne_nil hne']
      simp [hread.nonempty]
    rw [hothers.slash, List.append_assoc blank, ← List.append_assoc before, dropLast_append_getLast? hlong]
    refine and_congr_right fun _ => ?_
    unfold lastStop
    split
    · exact Iff.rfl
    · rw [List.getLast?_cons]
      cases attrs.getLast? <;> simp

/-- The state machine follows the reading of the attributes of a tag. -/
theorem readAttrs_finish (c : Cursor) (st : TagState) (before : Bytes) (last : Option Nat)
    (hst : st = gap ∨ st = TagState.slash) (hlast : ∀ s ∈ last, s ≤ c.pos)
    (hbefore : c.rest.head? = some 62 →
      (st = TagState.slash ↔ before.getLast? = some 47 ∧ ∀ s ∈ last, s ≠ c.pos)) :
    match readAttrs c with
    | none => st.finish c.rest = none
    | some (attrs, next) => ∃ used selfClosing, AttributesRead c next attrs st before last used selfClosing := by
  induction hn : c.rest.length using Nat.strong_induction_on generalizing c st before last with
  | _ n ih =>
  subst hn
  have hfin := finish_skip_space hst c.rest
  change st.finish c.rest = (if c.rest.head?.any isSpace then gap else st).finish (c.skip isSpace).rest at hfin
  have hst' : (if c.rest.head?.any isSpace then gap else st) = gap ∨
      (if c.rest.head?.any isSpace then gap else st) = TagState.slash := by split <;> simp [hst]
  rcases readAttrs_cases c with ⟨hk, hc⟩ | ⟨r, hk, hc⟩ | ⟨x, r, hk, hxs, hx62, hv, hc⟩ |
    ⟨x, r, v, next, hk, hxs, hx62, hv, hc⟩
  · rw [hc]
    simp only [hfin, hk, finish_nil]
  · rw [hc]
    exact AttributesRead.end hst hbefore hk
  · rw [hc]
    simp only [hfin, hk, finish_of_not_gt hst' hx62]
    rw [← hk]
    exact readValue_skipKey_none hk hxs hx62 hv
  have hkey : st.finish c.rest = gap.finish (c.skip isSpace).rest := by
    rw [hfin, hk, finish_of_not_gt hst' hx62]
  obtain ⟨st', used, hread⟩ := readValue_skipKey hk hxs hx62 hv
  have hle : ∀ s ∈ last, s ≤ (c.skip isSpace).pos := fun s hs => Nat.le_trans (hlast s hs) (Nat.le_add_right ..)
  have hlt : next.rest.length < c.rest.length := by
    have h1 := c.skip_length_le isSpace
    have h2 := congrArg List.length hread.split
    have h3 := List.length_pos_iff.mpr hread.nonempty
    rw [List.length_append] at h2
    omega
  have hrec := ih _ hlt next st' used _ hread.state (hread.lastStop_le hle)
    (fun _ => hread.slash_iff hk hxs hx62 hv hle) rfl
  rw [hc]
  cases hnext : readAttrs next with
  | none =>
    simp only [hnext, Option.map_none] at hrec ⊢
    rw [hkey, hread.finish, hrec]
  | some result =>
    simp only [hnext, Option.map_some] at hrec ⊢
    obtain ⟨used', selfClosing, hothers⟩ := hrec
    obtain ⟨all, h⟩ := AttributesRead.cons hread hkey hothers
    exact ⟨all, selfClosing, h⟩

theorem name_finish_eq (s : Bytes) : name.finish s = gap.finish (s.dropWhile (!isNameEnd ·)) := by
  have hdrop : name.finish (s.dropWhile (!isNameEnd ·)) = name.finish s := by
    refine finish_dropWhile (by simp) ?_ s
    intro b hb
    simp only [isNameEnd, Bool.not_eq_true', Bool.or_eq_false_iff] at hb
    simp [step, hb]
  rw [← hdrop]
  cases h : s.dropWhile (!isNameEnd ·) with
  | nil => rfl
  | cons b r =>
    have hb : isNameEnd b = true := by simpa using isSpace_head_dropWhile h
    have hstep : name.step b = gap.step b := by
      simp only [isNameEnd, Bool.or_eq_true] at hb
      rcases hb with (hb | hb) | hb <;> simp [step, hb]
    simp only [finish, hstep]

/-- Reading a whole tag from the first letter of its name. -/
structure TagRead (c : Cursor) (tag : TagReading) (used : Bytes) (selfClosing : Bool) : Prop where
  split : c.rest = used ++ tag.next.rest
  pos : tag.next.pos = c.pos + used.length
  stop : used.getLast? = some 62
  name : tag.name = ⟨c.pos, c.pos + (c.rest.takeWhile (!isNameEnd ·)).length⟩
  finish : TagState.name.finish c.rest = some (selfClosing, tag.next.rest)
  slash : selfClosing = true ↔ used.dropLast.getLast? = some 47 ∧
    ∀ s ∈ tag.attrs.getLast?.map (·.value.stop), s + 1 ≠ tag.next.pos

theorem readAttrs_skip_name (c : Cursor) :
    match readAttrs (c.skip (!isNameEnd ·)) with
    | none => name.finish c.rest = none
    | some (attrs, next) => ∃ used selfClosing, AttributesRead (c.skip (!isNameEnd ·)) next attrs gap
        (c.rest.takeWhile (!isNameEnd ·)) none used selfClosing := by
  have hlast : (c.rest.takeWhile (!isNameEnd ·)).getLast? ≠ some 47 :=
    ne_slash_of_getLast? (fun _ h => List.mem_takeWhile_imp h) (by decide)
  have h := readAttrs_finish (c.skip (!isNameEnd ·)) gap (c.rest.takeWhile (!isNameEnd ·)) none
    (Or.inl rfl) (by simp) (fun _ => by simp [hlast])
  cases hr : readAttrs (c.skip (!isNameEnd ·)) with
  | none =>
    rw [hr] at h
    rw [name_finish_eq]
    exact h
  | some read =>
    rw [hr] at h
    exact h

/-- The state machine finds a tag exactly where it is read. -/
theorem readTag_finish (c : Cursor) :
    match readTag c with
    | none => name.finish c.rest = none
    | some tag => ∃ used selfClosing, TagRead c tag used selfClosing := by
  have h := readAttrs_skip_name c
  dsimp only [readTag]
  cases hr : readAttrs (c.skip (!isNameEnd ·)) with
  | none =>
    rw [hr] at h
    exact h
  | some read =>
    obtain ⟨attrs, next⟩ := read
    rw [hr] at h
    obtain ⟨used, selfClosing, hread⟩ := h
    have hsplit : c.rest = c.rest.takeWhile (!isNameEnd ·) ++ (c.skip (!isNameEnd ·)).rest :=
      List.takeWhile_append_dropWhile.symm
    refine ⟨c.rest.takeWhile (!isNameEnd ·) ++ used, selfClosing, ?_, ?_, ?_, rfl, ?_, ?_⟩
    · rw [List.append_assoc, ← hread.split]
      exact hsplit
    · have hpos := hread.pos
      simp only [Cursor.skip, List.length_append] at hpos ⊢
      omega
    · rw [List.getLast?_append, hread.stop]
      rfl
    · rw [name_finish_eq]
      exact hread.finish
    · rw [hread.slash, Option.or_none]

end Codemod.Markup
