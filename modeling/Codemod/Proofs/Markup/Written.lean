import Codemod.Proofs.Markup.AttributeScan
import Codemod.Proofs.Markup.Patched

namespace Codemod.Markup

namespace TagState

/-- The state behind some bytes. -/
def run (st : TagState) (s : Bytes) : TagState := s.foldl step st

@[simp] theorem run_nil (st : TagState) : st.run [] = st := rfl

@[simp] theorem run_cons (st : TagState) (b : UInt8) (s : Bytes) : st.run (b :: s) = (st.step b).run s := rfl

theorem run_append (st : TagState) (s t : Bytes) : st.run (s ++ t) = (st.run s).run t := List.foldl_append

theorem run_closed (x : Bool) (s : Bytes) : (closed x).run s = closed x := by
  induction s with
  | nil => rfl
  | cons b s ih => exact ih

/-- Bytes that do not close the tag are passed over. -/
theorem finish_run {st : TagState} {s : Bytes} (h : ∀ x, st.run s ≠ closed x) (y : Bytes) :
    st.finish (s ++ y) = (st.run s).finish y := by
  induction s generalizing st with
  | nil => rfl
  | cons b s ih =>
    have hopen : ∀ x, st.step b ≠ closed x := by
      intro x hx
      exact h x (by rw [run_cons, hx, run_closed])
    rw [List.cons_append, finish_cons_open hopen, ih h]
    rfl

theorem run_of_all {st : TagState} {p : UInt8 → Bool} (hp : ∀ b, p b = true → st.step b = st) {s : Bytes}
    (h : ∀ b ∈ s, p b = true) : st.run s = st := by
  induction s with
  | nil => rfl
  | cons b s ih =>
    rw [run_cons, hp b (h b (by simp))]
    exact ih fun c hc => h c (List.mem_cons_of_mem b hc)

/-- The state at the end of an attribute, or of the name, and what may follow it there. -/
inductive Ended : TagState → Bytes → Prop
  | gap (s) : Ended gap s
  | name {s} : (s = [] ∨ ∃ b r, s = b :: r ∧ isNameEnd b = true) → Ended name s
  | key {s} : (s = [] ∨ ∃ b r, s = b :: r ∧ isNameEnd b = true) → (s.dropWhile isSpace).head? ≠ some 61 → Ended key s
  | unquoted {s} : (s = [] ∨ ∃ b r, s = b :: r ∧ isValueEnd b = true) → Ended unquoted s
  | beforeValue {s} : (s = [] ∨ s.head? = some 62) → Ended beforeValue s

theorem Ended.ne_closed {st : TagState} {s : Bytes} (h : Ended st s) (x : Bool) : st ≠ closed x := by
  cases h <;> simp

/-- Behind an attribute it does not matter which kind it was. -/
theorem Ended.finish {st : TagState} {s : Bytes} (h : Ended st s) : st.finish s = TagState.gap.finish s := by
  cases h with
  | gap => rfl
  | name h =>
    rcases h with rfl | ⟨b, r, rfl, hb⟩
    · rfl
    · rw [name_finish_eq, List.dropWhile_cons_of_neg (by simpa using hb)]
  | key h1 h2 =>
    rcases h1 with rfl | ⟨b, r, rfl, hb⟩
    · rfl
    rw [key_finish_eq, ← gap_finish_dropWhile]
    cases hd : List.dropWhile isSpace (b :: r) with
    | nil => rfl
    | cons c t =>
      have hsp : isSpace c = false := isSpace_head_dropWhile hd
      have hc : (c == ('=' : Char).toUInt8) = false := by
        rw [hd] at h2
        refine beq_eq_false_iff_ne.mpr fun h => h2 ?_
        rw [h]
        rfl
      simp only [TagState.finish, step, hsp, hc]
      rfl
  | unquoted h =>
    rcases h with rfl | ⟨b, r, rfl, hb⟩
    · rfl
    · simp only [isValueEnd, Bool.or_eq_true, beq_iff_eq] at hb
      by_cases hs : isSpace b = true
      · simp [TagState.finish, step, hs]
      · obtain rfl : b = 62 := hb.resolve_left hs
        rfl
  | beforeValue h =>
    rcases h with rfl | h
    · rfl
    · cases s with
      | nil => rfl
      | cons b r =>
        obtain rfl : b = 62 := by simpa using h
        rfl

theorem isBreak_eq {b : UInt8} (h : isBreak b = true) : isSpace b = true ∨ b = 47 := by
  simpa [isBreak] using h

theorem run_breaks {st : TagState} (hst : st = gap ∨ st = slash) {s : Bytes} (hs : ∀ b ∈ s, isBreak b = true) :
    st.run s = gap ∨ st.run s = slash := by
  induction s generalizing st with
  | nil => exact hst
  | cons b s ih =>
    refine ih ?_ fun c hc => hs c (List.mem_cons_of_mem b hc)
    rcases isBreak_eq (hs b (List.mem_cons_self ..)) with hb | rfl
    · rcases hst with rfl | rfl <;> simp [step, hb]
    · rcases hst with rfl | rfl <;> exact Or.inr rfl

/-- Only a last slash is remembered. -/
theorem run_breaks_eq_gap {s : Bytes} (hs : ∀ b ∈ s, isBreak b = true) (hlast : s.getLast? ≠ some 47) :
    gap.run s = gap := by
  rcases List.eq_nil_or_concat s with rfl | ⟨s, b, rfl⟩
  · rfl
  · have hb : b ≠ 47 := by simpa using hlast
    have hspace : isSpace b = true := (isBreak_eq (hs b (by simp))).resolve_right hb
    rw [List.concat_eq_append, run_append]
    rcases run_breaks (Or.inl rfl) (fun c hc => hs c (by simp [hc]) : ∀ c ∈ s, isBreak c = true) with h | h <;>
      simp [h, step, hspace]

theorem run_spaces_afterKey {s : Bytes} (hs : ∀ b ∈ s, isBreak b = true) :
    afterKey.run s = gap ∨ afterKey.run s = slash ∨ afterKey.run s = afterKey ∧ ∀ b ∈ s, isSpace b = true := by
  induction s with
  | nil => exact Or.inr (Or.inr ⟨rfl, by simp⟩)
  | cons b s ih =>
    have hs' : ∀ c ∈ s, isBreak c = true := fun c hc => hs c (List.mem_cons_of_mem b hc)
    by_cases hb : isSpace b = true
    · have hstep : afterKey.step b = afterKey := by simp [step, hb]
      rw [run_cons, hstep]
      rcases ih hs' with h | h | ⟨h, hall⟩
      · exact Or.inl h
      · exact Or.inr (Or.inl h)
      · refine Or.inr (Or.inr ⟨h, fun c hc => ?_⟩)
        rcases List.mem_cons.mp hc with rfl | hc
        · exact hb
        · exact hall c hc
    · obtain rfl : b = 47 := (isBreak_eq (hs b (List.mem_cons_self ..))).resolve_left hb
      rcases run_breaks (Or.inr rfl) hs' with h | h
      · exact Or.inl h
      · exact Or.inr (Or.inl h)

/-- Behind an attribute the first byte that is no break begins the next one. -/
theorem run_of_ended {st : TagState} {breaks : Bytes} {b : UInt8} {r : Bytes}
    (h : Ended st (breaks ++ b :: r)) (hbreaks : ∀ c ∈ breaks, isBreak c = true) (hb : isBreak b = false)
    (hgt : b ≠ 62) : st.run (breaks ++ [b]) = key := by
  have hspace : isSpace b = false := (Bool.or_eq_false_iff.mp hb).1
  have hslash : b ≠ 47 := beq_eq_false_iff_ne.mp (Bool.or_eq_false_iff.mp hb).2
  have hkey : ∀ {t : TagState}, t = gap ∨ t = slash → t.step b = key := by
    rintro t (rfl | rfl) <;> simp [step, hspace, hslash, hgt]
  rw [run_append, run_cons, run_nil]
  cases breaks with
  | nil =>
    cases h with
    | gap => exact hkey (Or.inl rfl)
    | name h => simp [isNameEnd, hspace, hslash, hgt] at h
    | key h => simp [isNameEnd, hspace, hslash, hgt] at h
    | unquoted h => simp [isValueEnd, hspace, hgt] at h
    | beforeValue h => simp [hgt] at h
  | cons x breaks =>
    have hx := isBreak_eq (hbreaks x (List.mem_cons_self ..))
    have hrest : ∀ c ∈ breaks, isBreak c = true := fun c hc => hbreaks c (List.mem_cons_of_mem x hc)
    have hplain : st.step x = gap ∨ st.step x = slash → (st.run (x :: breaks)).step b = key :=
      fun hst => hkey (run_breaks hst hrest)
    rw [List.cons_append] at h
    cases h with
    | gap =>
      refine hplain ?_
      rcases hx with hx | rfl
      · simp [step, hx]
      · exact Or.inr rfl
    | name h =>
      refine hplain ?_
      rcases hx with hx | rfl
      · simp [step, hx]
      · exact Or.inr rfl
    | key h1 h2 =>
      rcases hx with hx | rfl
      · rw [run_cons, show key.step x = afterKey by simp [step, hx]]
        rcases run_spaces_afterKey hrest with h | h | ⟨h, hall⟩
        · rw [h]
          exact hkey (Or.inl rfl)
        · rw [h]
          exact hkey (Or.inr rfl)
        · have hne : b ≠ 61 := by
            rw [List.dropWhile_cons_of_pos hx, List.dropWhile_append_of_pos hall,
              List.dropWhile_cons_of_neg (by simp [hspace])] at h2
            simpa using h2
          have hne' : (b == ('=' : Char).toUInt8) = false := beq_eq_false_iff_ne.mpr hne
          rw [h]
          simp [step, hspace, hslash, hgt, hne']
      · exact hplain (Or.inr rfl)
    | unquoted h =>
      refine hplain (Or.inl ?_)
      have hx' : isSpace x = true := by
        rcases hx with hx | rfl
        · exact hx
        · simp [isValueEnd] at h
          exact absurd h (by decide)
      simp [step, hx']
    | beforeValue h =>
      have h : x = 62 := by simpa using h
      subst h
      rcases hx with hx | hx
      · exact absurd hx (by decide)
      · exact absurd hx (by decide)

/-- The bytes do not become part of what a reader has read before them. -/
def apart : TagState → Bytes → Bool
  | gap, _ => true
  | slash, s => s.head? != some 62
  | name, s => s.head?.any isNameEnd
  | key, s => s.head?.any isNameEnd && (s.dropWhile isSpace).head? != some 61
  | beforeValue, s => s.head? == some 62
  | unquoted, s => s.head?.any isValueEnd
  | _, _ => false

theorem exists_cons_of_head?_any {p : UInt8 → Bool} {s : Bytes} (h : s.head?.any p = true) :
    ∃ b r, s = b :: r ∧ p b = true := by
  cases s with
  | nil => cases h
  | cons b r => exact ⟨b, r, rfl, h⟩

theorem ended_of_apart {st : TagState} {s : Bytes} (h : st.apart s = true) (hst : st ≠ slash) : Ended st s := by
  cases st with
  | gap => exact .gap s
  | slash => exact absurd rfl hst
  | name => exact .name (Or.inr (exists_cons_of_head?_any h))
  | key =>
    obtain ⟨hhead, hsign⟩ := Bool.and_eq_true_iff.mp h
    exact .key (Or.inr (exists_cons_of_head?_any hhead)) (by simpa using hsign)
  | beforeValue => exact .beforeValue (Or.inr (by simpa using beq_iff_eq.mp h))
  | unquoted => exact .unquoted (Or.inr (exists_cons_of_head?_any h))
  | _ => cases h

theorem finish_of_apart {st : TagState} {s : Bytes} (h : st.apart s = true) : st.finish s = gap.finish s := by
  by_cases hst : st = slash
  · subst hst
    cases s with
    | nil => rfl
    | cons b s =>
      have hb : b ≠ 62 := by simpa [apart] using h
      simp [TagState.finish, step, hb]
  · exact (ended_of_apart h hst).finish

theorem apart_ne_closed {st : TagState} {s : Bytes} (h : st.apart s = true) (x : Bool) : st ≠ closed x := by
  rintro rfl
  cases h

/-- Only the bytes up to the first that is no white space matter. -/
theorem apart_append {s : Bytes} {b : UInt8} (hb : b ∈ s) (hspace : isSpace b = false) (st : TagState) (y y' : Bytes) :
    st.apart (s ++ y) = st.apart (s ++ y') := by
  have hne : s ≠ [] := List.ne_nil_of_mem hb
  have hdrop : s.dropWhile isSpace ≠ [] := by
    intro h
    have := List.dropWhile_eq_nil_iff.mp h b hb
    rw [hspace] at this
    cases this
  have hsign (z : Bytes) : ((s ++ z).dropWhile isSpace).head? = (s.dropWhile isSpace).head? := by
    rw [List.dropWhile_append, if_neg (by simpa using hdrop), List.head?_append_of_ne_nil _ hdrop]
  cases st <;> simp only [apart, hsign, List.head?_append_of_ne_nil _ hne]

end TagState

open TagState

theorem run_key_sign {s : Bytes} (hs : ∀ b ∈ s, isSpace b = true) : (key.run s).step 61 = beforeValue := by
  cases s with
  | nil => rfl
  | cons b s =>
    have hb : key.step b = afterKey := by simp [step, hs b (List.mem_cons_self ..)]
    have hrest : afterKey.run s = afterKey :=
      run_of_all (fun c hc => by simp [step, hc]) fun c hc => hs c (List.mem_cons_of_mem b hc)
    rw [run_cons, hb, hrest]
    rfl

theorem head_dropWhile {p : UInt8 → Bool} (s : Bytes) :
    s.dropWhile p = [] ∨ ∃ b r, s.dropWhile p = b :: r ∧ p b = false := by
  cases h : s.dropWhile p with
  | nil => exact Or.inl rfl
  | cons b r => exact Or.inr ⟨b, r, rfl, isSpace_head_dropWhile h⟩

theorem run_takeWhile {st : TagState} {p : UInt8 → Bool} (hp : ∀ b, p b = true → st.step b = st) (s : Bytes) :
    st.run (s.takeWhile p) = st := run_of_all hp fun _ hb => List.mem_takeWhile_imp hb

theorem step_key_of_not_isKeyEnd {b : UInt8} (h : (!isKeyEnd b) = true) : key.step b = key := by
  simp only [isKeyEnd, isNameEnd, Bool.not_eq_true', Bool.or_eq_false_iff] at h
  simp only [step, h]
  rfl

theorem step_unquoted_of_not_isValueEnd {b : UInt8} (h : (!isValueEnd b) = true) : unquoted.step b = unquoted := by
  simp only [isValueEnd, Bool.not_eq_true', Bool.or_eq_false_iff] at h
  simp only [step, h]
  rfl

theorem step_quote {q : UInt8} (h : isQuote q = true) : beforeValue.step q = quoted q := by
  simp only [isQuote, Bool.or_eq_true, beq_iff_eq] at h
  rcases h with rfl | rfl <;> rfl

namespace IsSign

variable {sign : Bytes}

theorem head_isKeyEnd (h : IsSign sign) (s : Bytes) : ∀ b ∈ (sign ++ s).head?, (!isKeyEnd b) = false := by
  obtain ⟨before, after, rfl, hbefore, -⟩ := h
  intro b hb
  cases before with
  | nil =>
    obtain rfl : 61 = b := by simpa using hb
    decide
  | cons c before =>
    obtain rfl : c = b := by simpa using hb
    simp [isKeyEnd, isNameEnd, hbefore c (List.mem_cons_self ..)]

/-- White space, the sign and white space again are passed over. -/
theorem skip (h : IsSign sign) {s : Bytes} (hs : ∀ b ∈ s.head?, isSpace b = false) (k : Nat) :
    ∃ j r, Cursor.skip isSpace ⟨k, sign ++ s⟩ = ⟨j, 61 :: r⟩ ∧
      Cursor.skip isSpace ⟨j + 1, r⟩ = ⟨k + sign.length, s⟩ := by
  obtain ⟨before, after, rfl, hbefore, hafter⟩ := h
  have h61 : ∀ b ∈ (61 :: (after ++ s)).head?, isSpace b = false := by
    rintro b ⟨⟩
    decide
  refine ⟨k + before.length, after ++ s, ?_, ?_⟩
  · rw [List.append_assoc, List.cons_append, Cursor.skip_append hbefore h61]
  · rw [Cursor.skip_append hafter hs, List.length_append, List.length_cons]
    congr 1
    omega

end IsSign

/-- The state of a reader behind an attribute. -/
def Attribute.behind (a : Attribute) : TagState :=
  if a.hasValue then
    if a.quote.isSome then gap else if a.value.isEmpty then beforeValue else unquoted
  else .key

theorem Attribute.behind_ne_slash (a : Attribute) : a.behind ≠ slash := by
  unfold Attribute.behind
  split_ifs <;> simp

/-- An attribute that begins at an offset, its bytes and the rest of the tag. -/
inductive Attribute.Written (p : Nat) : Bytes → Bytes → Attribute → Prop
  | bare {x : UInt8} {word rest : Bytes} : (∀ b ∈ word, isKeyEnd b = false) → TagState.key.apart rest = true →
      Written p (x :: word) rest
        ⟨x :: word, [], none, false, ⟨p, p + 1 + word.length⟩, ⟨p, p + 1 + word.length⟩,
          ⟨p + 1 + word.length, p + 1 + word.length⟩⟩
  | quoted {x q : UInt8} {word sign text rest : Bytes} : (∀ b ∈ word, isKeyEnd b = false) → IsSign sign →
      isQuote q = true → q ∉ text →
      Written p (x :: (word ++ (sign ++ q :: (text ++ [q])))) rest
        ⟨x :: word, text, some q, true, ⟨p, p + 1 + word.length + sign.length + 1 + text.length + 1⟩,
          ⟨p, p + 1 + word.length⟩,
          ⟨p + 1 + word.length + sign.length + 1, p + 1 + word.length + sign.length + 1 + text.length⟩⟩
  | unquoted {x : UInt8} {word sign text rest : Bytes} : (∀ b ∈ word, isKeyEnd b = false) → IsSign sign →
      (∀ b ∈ (text ++ rest).head?, isSpace b = false ∧ isQuote b = false) → (∀ b ∈ text, isValueEnd b = false) →
      rest.head?.any isValueEnd = true →
      Written p (x :: (word ++ (sign ++ text))) rest
        ⟨x :: word, text, none, true, ⟨p, p + 1 + word.length + sign.length + text.length⟩,
          ⟨p, p + 1 + word.length⟩,
          ⟨p + 1 + word.length + sign.length, p + 1 + word.length + sign.length + text.length⟩⟩

namespace Attribute.Written

variable {p : Nat} {s rest : Bytes} {a : Attribute}

theorem span (h : Written p s rest a) : a.span = ⟨p, p + s.length⟩ := by
  cases h <;> simp <;> omega

theorem apart (h : Written p s rest a) : a.behind.apart rest = true := by
  cases h with
  | bare _ h => exact h
  | quoted => rfl
  | @unquoted x word sign text rest hword hsign hfirst htext hend =>
    cases text with
    | nil =>
      obtain ⟨b, r, rfl, hb⟩ := exists_cons_of_head?_any hend
      have hspace := (hfirst b rfl).1
      obtain rfl : b = 62 := by simpa [isValueEnd, hspace] using hb
      rfl
    | cons c text => exact hend

/-- Other bytes may follow an attribute if they do not become part of it. -/
theorem of_apart (h : Written p s rest a) {rest' : Bytes} (hrest : a.behind.apart rest' = true) :
    Written p s rest' a := by
  cases h with
  | bare hword _ => exact .bare hword hrest
  | quoted hword hsign hquote htext => exact .quoted hword hsign hquote htext
  | @unquoted x word sign text rest hword hsign hfirst htext hend =>
    cases text with
    | nil =>
      obtain ⟨r, rfl⟩ : ∃ r, rest' = 62 :: r := List.head?_eq_some_iff.mp (beq_iff_eq.mp hrest)
      exact .unquoted hword hsign (by rintro b ⟨⟩; decide) htext rfl
    | cons c text => exact .unquoted hword hsign hfirst htext hrest

theorem eq_cons (h : Written p s rest a) : ∃ x r, s = x :: r := by
  cases h <;> exact ⟨_, _, rfl⟩

end Attribute.Written

theorem run_word {word : Bytes} (h : ∀ b ∈ word, isKeyEnd b = false) : TagState.key.run word = .key :=
  run_of_all (p := (!isKeyEnd ·)) (fun _ hb => step_key_of_not_isKeyEnd hb) fun b hb => by simp [h b hb]

theorem IsSign.run {sign : Bytes} (h : IsSign sign) : TagState.key.run sign = beforeValue := by
  obtain ⟨before, after, rfl, hbefore, hafter⟩ := h
  rw [run_append, run_cons, run_key_sign hbefore]
  exact run_of_all (fun b hb => by simp [step, hb]) hafter

namespace Attribute.Written

variable {p : Nat} {x : UInt8} {r rest : Bytes} {a : Attribute}

/-- Behind the first byte of an attribute a reader comes to the state behind it. -/
theorem run (h : Written p (x :: r) rest a) : TagState.key.run r = a.behind := by
  cases h with
  | bare hword _ => exact run_word hword
  | @quoted x q word sign text rest hword hsign hquote htext =>
    have hstay : (TagState.quoted q).run text = .quoted q := by
      refine run_of_all (p := (· != q)) (fun b hb => by simpa [step] using hb) fun b hb => ?_
      rw [bne_iff_ne]
      rintro rfl
      exact htext hb
    rw [run_append, run_word hword, run_append, hsign.run, run_cons, step_quote hquote, run_append, hstay]
    simp [step, behind]
  | @unquoted x word sign text rest hword hsign hfirst htext hend =>
    rw [run_append, run_word hword, run_append, hsign.run]
    cases text with
    | nil => rfl
    | cons b text =>
      obtain ⟨hspace, hquote⟩ := hfirst b rfl
      have hb := htext b (List.mem_cons_self ..)
      have hgt : b ≠ 62 := by
        rintro rfl
        simp [isValueEnd] at hb
      have hstep : beforeValue.step b = .unquoted := by simp [step, hspace, hgt, hquote]
      rw [run_cons, hstep]
      exact run_of_all (p := (!isValueEnd ·)) (fun _ hc => step_unquoted_of_not_isValueEnd hc) fun c hc => by
        simp [htext c (List.mem_cons_of_mem b hc)]

theorem slice_behind (front text back : Bytes) {start stop : Nat} (hstart : start = p + front.length)
    (hstop : stop = start + text.length) : Bytes.slice (front ++ (text ++ back)) (start - p) (stop - p) = text := by
  rw [hstop, hstart, Nat.add_assoc, Nat.add_sub_cancel_left, Nat.add_sub_cancel_left, ← List.append_assoc]
  exact slice_self front text back

theorem slice_name {word back : Bytes} :
    Bytes.slice (x :: (word ++ back)) (p - p) (p + 1 + word.length - p) = x :: word := by
  refine slice_behind [] (x :: word) back rfl ?_
  rw [List.length_cons]
  omega

theorem skip_name {word back : Bytes} (hword : ∀ b ∈ word, isKeyEnd b = false)
    (hback : ∀ b ∈ back.head?, (!isKeyEnd b) = false) :
    Cursor.skip (!isKeyEnd ·) ⟨p + 1, (x :: (word ++ back)).drop 1⟩ = ⟨p + 1 + word.length, back⟩ :=
  Cursor.skip_append (fun b hb => by simp [hword b hb]) hback

/-- An attribute is read as it is written. -/
theorem scan (h : Written p (x :: r) rest a) :
    Attribute.scan ⟨p, x :: (r ++ rest)⟩ = (a, ⟨p + 1 + r.length, rest⟩) := by
  cases h with
  | bare hword hrest =>
    obtain ⟨hhead, hsign⟩ := Bool.and_eq_true_iff.mp hrest
    have hkey := skip_name (p := p) (x := x) hword fun b hb => by
      rw [Option.mem_def.mp hb] at hhead
      simp [isKeyEnd, show isNameEnd b = true from hhead]
    unfold Attribute.scan
    simp only [hkey, slice_name]
    split
    · next y t hy =>
      have hy : rest.dropWhile isSpace = y :: t := hy
      have hno : (y == ('=' : Char).toUInt8) = false := by
        rw [hy] at hsign
        simpa [toUInt8_equals] using hsign
      simp only [hno]
      rfl
    · rfl
  | @quoted _ q word sign text _ hword hsign hquote htext =>
    have hspace : ∀ b ∈ (q :: (text ++ q :: rest)).head?, isSpace b = false := by
      rintro b ⟨⟩
      exact not_isSpace_of_isQuote hquote
    obtain ⟨j, t, hsgn, hfirst⟩ := hsign.skip hspace (p + 1 + word.length)
    have hclose : Cursor.skip (· != q) ⟨p + 1 + word.length + sign.length + 1, text ++ q :: rest⟩ =
        ⟨p + 1 + word.length + sign.length + 1 + text.length, q :: rest⟩ := by
      refine Cursor.skip_append (fun b hb => ?_) ?_
      · rw [bne_iff_ne]
        rintro rfl
        exact htext hb
      · rintro b ⟨⟩
        exact bne_self_eq_false q
    have hused : word ++ (sign ++ q :: (text ++ [q])) ++ rest = word ++ (sign ++ q :: (text ++ q :: rest)) := by simp
    have hkey := skip_name (p := p) (x := x) hword (hsign.head_isKeyEnd (q :: (text ++ q :: rest)))
    have hvalue : Bytes.slice (x :: (word ++ (sign ++ q :: (text ++ q :: rest))))
        (p + 1 + word.length + sign.length + 1 - p) (p + 1 + word.length + sign.length + 1 + text.length - p) = text := by
      have hsplit : x :: (word ++ (sign ++ q :: (text ++ q :: rest))) =
          (x :: (word ++ (sign ++ [q]))) ++ (text ++ q :: rest) := by simp
      rw [hsplit]
      refine slice_behind _ text _ ?_ rfl
      simp only [List.length_append, List.length_cons, List.length_nil]
      omega
    rw [hused]
    unfold Attribute.scan
    simp only [hkey, slice_name, hsgn, toUInt8_equals, beq_self_eq_true, if_true, hfirst, hquote, hclose, hvalue]
    refine congrArg (Prod.mk _) ?_
    simp only [List.length_append, List.length_cons, List.length_nil, Cursor.mk.injEq, and_true]
    omega
  | @unquoted _ word sign text _ hword hsign hfirst htext hend =>
    obtain ⟨j, t, hsgn, hskip⟩ := hsign.skip (fun b hb => (hfirst b hb).1) (p + 1 + word.length)
    have hclose : Cursor.skip (!isValueEnd ·) ⟨p + 1 + word.length + sign.length, text ++ rest⟩ =
        ⟨p + 1 + word.length + sign.length + text.length, rest⟩ := by
      refine Cursor.skip_append (fun b hb => by simp [htext b hb]) fun b hb => ?_
      rw [Option.mem_def.mp hb] at hend
      simpa using hend
    have hused : word ++ (sign ++ text) ++ rest = word ++ (sign ++ (text ++ rest)) := by simp
    have hkey := skip_name (p := p) (x := x) hword (hsign.head_isKeyEnd (text ++ rest))
    have hvalue : Bytes.slice (x :: (word ++ (sign ++ (text ++ rest)))) (p + 1 + word.length + sign.length - p)
        (p + 1 + word.length + sign.length + text.length - p) = text := by
      have hsplit : x :: (word ++ (sign ++ (text ++ rest))) = (x :: (word ++ sign)) ++ (text ++ rest) := by simp
      rw [hsplit]
      refine slice_behind _ text _ ?_ rfl
      simp only [List.length_append, List.length_cons]
      omega
    rw [hused]
    unfold Attribute.scan
    simp only [hkey, slice_name, hsgn, toUInt8_equals, beq_self_eq_true, if_true, hskip]
    split
    · next q u hq =>
      rw [hq] at hfirst
      have hplain : isQuote q = false := (hfirst q rfl).2
      simp only [hplain, hclose, hvalue]
      refine congrArg (Prod.mk _) ?_
      simp only [List.length_append, Cursor.mk.injEq, and_true]
      omega
    · next hnil =>
      rw [(List.append_eq_nil_iff.mp hnil).2] at hend
      cases hend

end Attribute.Written

theorem head_dropWhile_of_finish {st : TagState} {q : UInt8 → Bool} {s : Bytes} (h : st.finish (s.dropWhile q) ≠ none) :
    ∃ b r, s.dropWhile q = b :: r ∧ q b = false := by
  rcases head_dropWhile (p := q) s with hs | hs
  · rw [hs] at h
    exact absurd rfl h
  · exact hs

/-- A tag that ends is read attribute by attribute. -/
theorem Attribute.exists_written (p : Nat) (x : UInt8) {r : Bytes} (hclosed : TagState.key.finish r ≠ none) :
    ∃ s rest a, r = s ++ rest ∧ Attribute.Written p (x :: s) rest a := by
  have hword : ∀ b ∈ r.takeWhile (!isKeyEnd ·), isKeyEnd b = false := fun b hb => by
    simpa using List.mem_takeWhile_imp hb
  have hr : r = r.takeWhile (!isKeyEnd ·) ++ r.dropWhile (!isKeyEnd ·) := List.takeWhile_append_dropWhile.symm
  rw [← key_finish_dropWhile] at hclosed
  obtain ⟨c, back, hback, hc⟩ := head_dropWhile_of_finish hclosed
  have hc : isKeyEnd c = true := by simpa using hc
  generalize r.takeWhile (!isKeyEnd ·) = word at hword hr
  generalize r.dropWhile (!isKeyEnd ·) = behind at hr hback hclosed
  have hblank : ∀ b ∈ behind.takeWhile isSpace, isSpace b = true := fun b hb => List.mem_takeWhile_imp hb
  have hbehind : behind = behind.takeWhile isSpace ++ behind.dropWhile isSpace := List.takeWhile_append_dropWhile.symm
  have hafter := hclosed
  rw [key_finish_eq] at hafter
  obtain ⟨y, t, hy, hspace⟩ := head_dropWhile_of_finish hafter
  by_cases hsgn : y = 61
  · subst hsgn
    have hvalue : beforeValue.finish t ≠ none := by
      rw [hy] at hafter
      exact hafter
    have hblank' : ∀ b ∈ t.takeWhile isSpace, isSpace b = true := fun b hb => List.mem_takeWhile_imp hb
    have ht : t = t.takeWhile isSpace ++ t.dropWhile isSpace := List.takeWhile_append_dropWhile.symm
    rw [← beforeValue_finish_dropWhile] at hvalue
    obtain ⟨q, u, hq, hqspace⟩ := head_dropWhile_of_finish hvalue
    have hsign : IsSign (behind.takeWhile isSpace ++ 61 :: t.takeWhile isSpace) := ⟨_, _, rfl, hblank, hblank'⟩
    have hsplit : behind = (behind.takeWhile isSpace ++ 61 :: t.takeWhile isSpace) ++ q :: u := by
      conv_lhs => rw [hbehind, hy, ht, hq]
      simp
    rw [hq] at hvalue
    generalize behind.takeWhile isSpace ++ 61 :: t.takeWhile isSpace = sign at hsign hsplit
    by_cases hquote : isQuote q = true
    · rw [finish_cons_open (by simp [step_quote hquote]), step_quote hquote, ← quoted_finish_dropWhile] at hvalue
      obtain ⟨z, v, hz, hzq⟩ := head_dropWhile_of_finish hvalue
      obtain rfl : z = q := by simpa using hzq
      refine ⟨word ++ (sign ++ z :: (u.takeWhile (· != z) ++ [z])), v, _, ?_, .quoted hword hsign hquote ?_⟩
      · rw [hr, hsplit]
        conv_lhs => rw [← List.takeWhile_append_dropWhile (p := (· != z)) (l := u), hz]
        simp
      · intro hmem
        simpa using List.mem_takeWhile_imp hmem
    · have hplain : isQuote q = false := by simpa using hquote
      refine ⟨word ++ (sign ++ (q :: u).takeWhile (!isValueEnd ·)), (q :: u).dropWhile (!isValueEnd ·), _, ?_,
        .unquoted hword hsign ?_ ?_ ?_⟩
      · rw [hr, hsplit]
        simp
      · rw [List.takeWhile_append_dropWhile]
        rintro b ⟨⟩
        exact ⟨hqspace, hplain⟩
      · intro b hb
        simpa using List.mem_takeWhile_imp hb
      · by_cases hgt : q = 62
        · subst hgt
          rfl
        · have hend : (!isValueEnd q) = true := by simp [isValueEnd, hqspace, hgt]
          have hstep : beforeValue.step q = .unquoted := by simp [step, hqspace, hgt, hplain]
          rw [finish_cons_open (by simp [hstep]), hstep, ← unquoted_finish_dropWhile] at hvalue
          obtain ⟨z, v, hz, hzend⟩ := head_dropWhile_of_finish hvalue
          rw [List.dropWhile_cons_of_pos (p := (!isValueEnd ·)) hend, hz]
          simpa using hzend
  · refine ⟨word, behind, _, hr, .bare hword ?_⟩
    have hname : isNameEnd c = true := by
      rcases Bool.or_eq_true_iff.mp hc with hc | hc
      · exact hc
      · obtain rfl : c = 61 := beq_iff_eq.mp hc
        rw [hback, List.dropWhile_cons_of_neg (by decide)] at hy
        exact absurd (List.cons.inj hy).1.symm hsgn
    rw [apart, hy, hback]
    simpa [hname] using hsgn

theorem not_isSpace_of_not_isKeyEnd {b : UInt8} (h : isKeyEnd b = false) : isSpace b = false := by
  simp only [isKeyEnd, isNameEnd, Bool.or_eq_false_iff] at h
  exact h.1.1.1

namespace Attribute

variable {p : Nat} {front rest : Bytes} {a : Attribute} {attrs : List Attribute}

/-- An attribute does not end in white space unless only the bracket follows. -/
theorem Written.tight {x : UInt8} {r : Bytes} {a : Attribute} (h : Written p (x :: r) rest a) (hx : isSpace x = false)
    (hrest : rest.head? ≠ some 62) : ∀ b ∈ (x :: r).getLast?, isSpace b = false := by
  intro b hb
  cases h with
  | bare hword _ =>
    rcases List.mem_cons.mp (List.mem_of_mem_getLast? hb) with rfl | hb
    · exact hx
    · exact not_isSpace_of_not_isKeyEnd (hword b hb)
  | @quoted _ q word sign text _ _ _ hquote _ =>
    have hlast : (x :: (word ++ (sign ++ q :: (text ++ [q])))).getLast? = some q := by
      rw [show x :: (word ++ (sign ++ q :: (text ++ [q]))) = (x :: (word ++ (sign ++ q :: text))) ++ [q] by simp]
      exact List.getLast?_concat
    rw [hlast] at hb
    obtain rfl : q = b := by simpa using hb
    exact not_isSpace_of_isQuote hquote
  | @unquoted _ word sign text _ _ hsign hfirst htext hend =>
    cases text with
    | nil =>
      obtain ⟨c, y, rfl, hc⟩ := exists_cons_of_head?_any hend
      have hspace := (hfirst c rfl).1
      exact absurd (by simpa [isValueEnd, hspace] using hc : c = 62) (by simpa using hrest)
    | cons c text =>
      have hlast : (x :: (word ++ (sign ++ c :: text))).getLast? = (c :: text).getLast? := by
        rw [show x :: (word ++ (sign ++ c :: text)) = (x :: (word ++ sign)) ++ c :: text by simp]
        exact List.getLast?_append_cons ..
      rw [hlast] at hb
      exact (Bool.or_eq_false_iff.mp (htext b (List.mem_of_mem_getLast? hb))).1

/-- The next attribute behind white space and slashes. -/
theorem scanAll_written {x : UInt8} {breaks r : Bytes} (hbreaks : ∀ b ∈ breaks, isBreak b = true)
    (hx : isBreak x = false) (hgt : x ≠ 62) (h : Written (p + breaks.length) (x :: r) rest a) :
    scanAll ⟨p, breaks ++ x :: (r ++ rest)⟩ = a :: scanAll ⟨p + breaks.length + 1 + r.length, rest⟩ := by
  have hskip : Cursor.skip isBreak ⟨p, breaks ++ x :: (r ++ rest)⟩ = ⟨p + breaks.length, x :: (r ++ rest)⟩ :=
    Cursor.skip_append hbreaks (by rintro b ⟨⟩; exact hx)
  rcases scanAll_cases ⟨p, breaks ++ x :: (r ++ rest)⟩ with ⟨-, hstop⟩ | ⟨-, -, -, -, hall⟩
  · rw [hskip] at hstop
    exact absurd (hstop x rfl) hgt
  · rw [hall, hskip, h.scan]

/-- White space and slashes in front of attributes do not matter. -/
theorem scanAll_breaks {breaks : Bytes} (hbreaks : ∀ b ∈ breaks, isBreak b = true) :
    scanAll ⟨p, breaks ++ rest⟩ = scanAll ⟨p + breaks.length, rest⟩ := by
  have hskip : Cursor.skip isBreak ⟨p, breaks ++ rest⟩ = Cursor.skip isBreak ⟨p + breaks.length, rest⟩ := by
    simp only [Cursor.skip, List.takeWhile_append_of_pos hbreaks, List.dropWhile_append_of_pos hbreaks,
      List.length_append, Nat.add_assoc]
  rcases scanAll_cases ⟨p + breaks.length, rest⟩ with ⟨hnil, hstop⟩ | ⟨x, r, hx, hgt, hall⟩ <;>
    rcases scanAll_cases ⟨p, breaks ++ rest⟩ with ⟨hnil', hstop'⟩ | ⟨x', r', hx', hgt', hall'⟩
  · rw [hnil, hnil']
  · rw [hskip] at hx'
    exact absurd (hstop x' (by rw [hx']; rfl)) hgt'
  · rw [hskip] at hstop'
    exact absurd (hstop' x (by rw [hx]; rfl)) hgt
  · rw [hall, hall', hskip]

/-- Attributes that stand at an offset in front of the rest of a tag. -/
inductive Front : Nat → Bytes → Bytes → List Attribute → Prop
  | nil {p : Nat} {rest : Bytes} : Front p [] rest []
  | cons {p : Nat} {x : UInt8} {breaks r front rest : Bytes} {a : Attribute} {attrs : List Attribute} :
      (∀ b ∈ breaks, isBreak b = true) → isBreak x = false → x ≠ 62 →
      Written (p + breaks.length) (x :: r) (front ++ rest) a →
      Front (p + breaks.length + 1 + r.length) front rest attrs →
      Front p (breaks ++ x :: (r ++ front)) rest (a :: attrs)

namespace Front

/-- They are read first. -/
theorem scanAll (h : Front p front rest attrs) :
    scanAll ⟨p, front ++ rest⟩ = attrs ++ Attribute.scanAll ⟨p + front.length, rest⟩ := by
  induction h with
  | nil => rfl
  | @cons p x breaks r front rest a attrs hbreaks hx hgt hwritten _ ih =>
    have hlen : p + (breaks ++ x :: (r ++ front)).length = p + breaks.length + 1 + r.length + front.length := by
      simp only [List.length_append, List.length_cons]
      omega
    rw [List.append_assoc, List.cons_append, List.append_assoc, scanAll_written hbreaks hx hgt hwritten, ih, hlen]
    rfl

/-- The state behind them. -/
theorem run (h : Front p front rest attrs) {st : TagState} (hst : Ended st (front ++ rest)) :
    st.run front = attrs.getLast?.elim st behind := by
  induction h generalizing st with
  | nil => rfl
  | @cons p x breaks r front rest a attrs hbreaks hx hgt hwritten _ ih =>
    have hkey : st.run (breaks ++ [x]) = .key := by
      refine run_of_ended (r := r ++ (front ++ rest)) ?_ hbreaks hx hgt
      simpa using hst
    have hbehind : Ended a.behind (front ++ rest) := ended_of_apart hwritten.apart a.behind_ne_slash
    rw [show breaks ++ x :: (r ++ front) = (breaks ++ [x]) ++ (r ++ front) by simp, run_append, hkey, run_append,
      hwritten.run, ih hbehind, List.getLast?_cons]
    cases attrs.getLast? <;> rfl

/-- Other bytes may follow if they do not become part of the last one. -/
theorem of_apart (h : Front p front rest attrs) {rest' : Bytes}
    (hrest : (attrs.getLast?.elim gap behind).apart rest' = true) : Front p front rest' attrs := by
  induction h with
  | nil => exact .nil
  | @cons p x breaks r front rest a attrs hbreaks hx hgt hwritten hfront ih =>
    rw [List.getLast?_cons] at hrest
    refine .cons hbreaks hx hgt (hwritten.of_apart ?_) (ih ?_)
    · cases hfront with
      | nil => exact hrest
      | @cons _ x' breaks' r' front' _ a' attrs' _ hx' _ _ _ =>
        have hspace : isSpace x' = false := (Bool.or_eq_false_iff.mp hx').1
        rw [← apart_append (s := breaks' ++ x' :: (r' ++ front')) (b := x') (by simp) hspace a.behind rest]
        exact hwritten.apart
    · cases h : attrs.getLast? with
      | none => rfl
      | some last =>
        rw [h] at hrest
        exact hrest

end Front

/-- The first attribute of the rest of a tag: breaks, its bytes and what follows them. -/
structure Next (p : Nat) (s : Bytes) (a : Attribute) (others : List Attribute) (breaks : Bytes) (x : UInt8)
    (r rest : Bytes) : Prop where
  split : s = breaks ++ x :: (r ++ rest)
  skipped : ∀ b ∈ breaks, isBreak b = true
  first : isBreak x = false ∧ x ≠ 62
  written : Written (p + breaks.length) (x :: r) rest a
  others : scanAll ⟨p + breaks.length + 1 + r.length, rest⟩ = others
  finish : gap.finish rest = gap.finish s

theorem exists_next {s : Bytes} (hclosed : gap.finish s ≠ none) {others : List Attribute}
    (h : scanAll ⟨p, s⟩ = a :: others) : ∃ breaks x r rest, Next p s a others breaks x r rest := by
  rcases scanAll_cases ⟨p, s⟩ with ⟨hnil, -⟩ | ⟨x, u, hx, hgt, -⟩
  · rw [hnil] at h
    cases h
  have hx : s.dropWhile isBreak = x :: u := hx
  have hbreak : isBreak x = false := isSpace_head_dropWhile (p := isBreak) hx
  have hbreaks : ∀ b ∈ s.takeWhile isBreak, isBreak b = true := fun b hb => List.mem_takeWhile_imp hb
  have hs : s = s.takeWhile isBreak ++ x :: u := by rw [← hx, List.takeWhile_append_dropWhile]
  generalize s.takeWhile isBreak = breaks at hbreaks hs
  have hkey : gap.run (breaks ++ [x]) = .key := run_of_ended (r := u) (.gap _) hbreaks hbreak hgt
  have hfinish : gap.finish s = TagState.key.finish u := by
    rw [hs, show breaks ++ x :: u = (breaks ++ [x]) ++ u by simp, finish_run (by simp [hkey]), hkey]
  obtain ⟨r, rest, a', rfl, hwritten⟩ := exists_written (p + breaks.length) x (hfinish ▸ hclosed)
  have hall := scanAll_written hbreaks hbreak hgt hwritten
  rw [← hs, h] at hall
  obtain ⟨rfl, hothers⟩ := List.cons.inj hall
  refine ⟨breaks, x, r, rest, hs, hbreaks, ⟨hbreak, hgt⟩, hwritten, hothers.symm, ?_⟩
  have hrun := hwritten.run
  rw [hfinish, finish_run (by rw [hrun]; exact apart_ne_closed hwritten.apart), hrun, finish_of_apart hwritten.apart]

/-- The attributes of a tag that ends, parted in front of one of them. -/
theorem exists_front {s : Bytes} (hclosed : gap.finish s ≠ none) {others : List Attribute}
    (h : scanAll ⟨p, s⟩ = attrs ++ others) :
    ∃ front rest, s = front ++ rest ∧ Front p front rest attrs ∧ scanAll ⟨p + front.length, rest⟩ = others ∧
      gap.finish rest = gap.finish s := by
  induction attrs generalizing p s with
  | nil => exact ⟨[], s, rfl, .nil, h, rfl⟩
  | cons a attrs ih =>
    obtain ⟨breaks, x, r, rest, hnext⟩ := exists_next hclosed h
    obtain ⟨front, rest', rfl, hfront, hothers, hfinish⟩ := ih (hnext.finish ▸ hclosed) hnext.others
    refine ⟨breaks ++ x :: (r ++ front), rest', ?_, .cons hnext.skipped hnext.first.1 hnext.first.2 hnext.written hfront,
      ?_, hfinish.trans hnext.finish⟩
    · rw [hnext.split]
      simp
    · rw [← hothers]
      congr 2
      simp only [List.length_append, List.length_cons]
      omega

end Attribute

end Codemod.Markup
