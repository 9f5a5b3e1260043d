import Codemod.Proofs.Markup.Patched
import Codemod.Proofs.Markup.Written

namespace Codemod.Markup

open TagState

/-- A closing bracket may stand where a slash does. -/
theorem ended_of_breaks {st : TagState} {breaks s : Bytes} (h : Ended st (breaks ++ 47 :: s))
    (hbreaks : ∀ b ∈ breaks, isBreak b = true) : Ended st (breaks ++ [62]) := by
  cases breaks with
  | nil =>
    cases h with
    | gap => exact .gap _
    | name h => exact .name (Or.inr ⟨62, [], rfl, rfl⟩)
    | key h1 h2 => exact .key (Or.inr ⟨62, [], rfl, rfl⟩) (by decide)
    | unquoted h => exact .unquoted (Or.inr ⟨62, [], rfl, rfl⟩)
    | beforeValue h => simp at h
  | cons b r =>
    cases h with
    | gap => exact .gap _
    | name h => exact .name (Or.inr ⟨b, _, rfl, by simpa using h⟩)
    | key h1 h2 =>
      refine .key (Or.inr ⟨b, _, rfl, by simpa using h1⟩) ?_
      intro heq
      have hmem : (61 : UInt8) ∈ b :: r ++ [62] := (List.dropWhile_sublist _).mem (List.mem_of_head? heq)
      rcases List.mem_append.mp hmem with hmem | hmem
      · exact absurd (hbreaks 61 hmem) (by decide)
      · simp at hmem
    | unquoted h => exact .unquoted (Or.inr ⟨b, _, rfl, by simpa using h⟩)
    | beforeValue h =>
      have h : b = 62 := by simpa using h
      subst h
      exact absurd (hbreaks 62 (List.mem_cons_self ..)) (by decide)

/-- What was read does not end in white space, or nothing but the closing bracket follows. -/
def Tight (used rest : Bytes) : Prop :=
  (∃ s z, used = s ++ [z] ∧ isSpace z = false) ∨ rest = [] ∨ rest.head? = some 62

/-- Reading an attribute leaves the reader of the tag at its end, if the tag has one. -/
theorem Attribute.scan_ended {c : Cursor} {b : UInt8} {r : Bytes} (hc : c.rest = b :: r)
    (hb : isSpace b = false) (hclosed : key.finish r ≠ none) :
    ∃ used, c.Moved (Attribute.scan c).2 (b :: used) ∧ Ended (key.run used) (Attribute.scan c).2.rest ∧
      Tight (b :: used) (Attribute.scan c).2.rest := by
  obtain ⟨p, s⟩ := c
  dsimp only at hc
  subst hc
  obtain ⟨used, rest, a, rfl, hwritten⟩ := exists_written p b hclosed
  rw [hwritten.scan]
  refine ⟨used, ⟨rfl, ?_⟩, ?_, ?_⟩
  · rw [List.length_cons, Nat.add_assoc, Nat.add_comm 1]
  · rw [hwritten.run]
    exact ended_of_apart hwritten.apart a.behind_ne_slash
  · by_cases hrest : rest.head? = some 62
    · exact Or.inr (Or.inr hrest)
    · have hne : b :: used ≠ [] := List.cons_ne_nil b used
      have hlast : isSpace ((b :: used).getLast hne) = false :=
        hwritten.tight hb hrest _ (List.getLast?_eq_some_getLast hne)
      exact Or.inl ⟨_, _, (List.dropLast_append_getLast hne).symm, hlast⟩

/-- Reading the next attribute behind a cursor. -/
structure AttributeStep (c : Cursor) (a : Attribute) (next : Cursor) (breaks used : Bytes) : Prop where
  all : Attribute.scanAll c = a :: Attribute.scanAll next
  span : a.span = ⟨c.pos + breaks.length, next.pos⟩
  moved : c.Moved next (breaks ++ used)
  nonempty : used ≠ []
  tight : Tight used next.rest
  finish : gap.finish next.rest = gap.finish c.rest
  ended : ∀ st, Ended st c.rest → Ended (st.run (breaks ++ used)) next.rest

theorem Attribute.scanAll_step {c : Cursor} (hclosed : gap.finish c.rest ≠ none) :
    (Attribute.scanAll c = [] ∧ (c.rest.dropWhile isBreak).head? = some 62) ∨
      ∃ a next breaks used, AttributeStep c a next breaks used := by
  have hskip := Cursor.moved_skip isBreak c
  have hbreaks : ∀ b ∈ c.rest.takeWhile isBreak, isBreak b = true := fun b hb => List.mem_takeWhile_imp hb
  have hrest : (c.skip isBreak).rest = c.rest.dropWhile isBreak := rfl
  generalize c.rest.takeWhile isBreak = breaks at hskip hbreaks
  rcases Attribute.scanAll_cases c with ⟨h, hend⟩ | ⟨x, r, hx, hgt, h⟩
  · refine Or.inl ⟨h, ?_⟩
    rw [hrest] at hend
    cases hd : c.rest.dropWhile isBreak with
    | nil =>
      rw [hd] at hrest
      rw [hskip.1, hrest, List.append_nil] at hclosed
      obtain ⟨⟨sc, t⟩, hsome⟩ := Option.ne_none_iff_exists'.mp hclosed
      exact absurd (hbreaks 62 (mem_of_finish hsome (by simp))) (by decide)
    | cons y t =>
      rw [hd] at hend
      rw [hend y rfl]
      rfl
  · have hbreak : isBreak x = false := isSpace_head_dropWhile (p := isBreak) hx
    have hspace : isSpace x = false := (Bool.or_eq_false_iff.mp hbreak).1
    have hcut : c.rest = breaks ++ x :: r := by rw [← hx]; exact hskip.1
    have hkey : ∀ st, Ended st c.rest → st.run (breaks ++ [x]) = key :=
      fun st hst => run_of_ended (r := r) (hcut ▸ hst) hbreaks hbreak hgt
    have hr : gap.finish c.rest = key.finish r := by
      have hgap := hkey gap (.gap _)
      rw [hcut, show breaks ++ x :: r = (breaks ++ [x]) ++ r by simp, finish_run (by simp [hgap]), hgap]
    obtain ⟨used, hmoved, hended, htight⟩ := Attribute.scan_ended hx hspace (hr ▸ hclosed)
    have hsplit : r = used ++ (Attribute.scan (c.skip isBreak)).2.rest := by
      have := hmoved.1
      rw [hx] at this
      exact (List.cons.inj this).2
    obtain ⟨_, hat⟩ := Attribute.scan_spec (c.skip isBreak) (by rw [hx]; simp)
    refine Or.inr ⟨_, _, breaks, x :: used, h, ?_, hskip.trans hmoved, by simp, htight, ?_, ?_⟩
    · rw [hat.span, hskip.2]
    · rw [hr, hsplit, finish_run hended.ne_closed, hended.finish]
    · intro st hst
      rw [show breaks ++ x :: used = (breaks ++ [x]) ++ used by simp, run_append, hkey st hst]
      exact hended

theorem AttributeStep.length_lt {c next : Cursor} {a : Attribute} {breaks used : Bytes}
    (h : AttributeStep c a next breaks used) : next.rest.length < c.rest.length := by
  have hused := List.length_pos_iff.mpr h.nonempty
  rw [h.moved.1, List.length_append, List.length_append]
  omega

/-- Where the attributes behind a cursor end: the reader of the tag is between attributes, and
only breaks are left of the tag. -/
structure AttributesEnd (st : TagState) (c next : Cursor) (used : Bytes) : Prop where
  moved : c.Moved next used
  ended : Ended (st.run used) next.rest
  pos : ((Attribute.scanAll c).getLast?.elim c.pos fun a => a.span.stop) = next.pos
  rest : (next.rest.dropWhile isBreak).head? = some 62

theorem Attribute.scanAll_ended {st : TagState} {c : Cursor} (hst : Ended st c.rest)
    (hclosed : gap.finish c.rest ≠ none) : ∃ next used, AttributesEnd st c next used := by
  induction hn : c.rest.length using Nat.strong_induction_on generalizing c st with
  | _ n ih =>
  subst hn
  rcases Attribute.scanAll_step hclosed with ⟨h, hend⟩ | ⟨a, next₁, breaks, used₁, hstep⟩
  · exact ⟨c, [], ⟨rfl, rfl⟩, hst, by rw [h]; rfl, hend⟩
  · obtain ⟨next, used₂, hmoved, hended, hpos, hend⟩ :=
      ih _ hstep.length_lt (hstep.ended st hst) (by rw [hstep.finish]; exact hclosed) rfl
    refine ⟨next, _, hstep.moved.trans hmoved, ?_, ?_, hend⟩
    · rw [run_append]
      exact hended
    · rw [hstep.all, List.getLast?_cons, ← hpos]
      cases (Attribute.scanAll next₁).getLast? with
      | none => simp [hstep.span]
      | some a => rfl

/-- A start tag cut behind its last attribute. -/
structure AttributesCut (tag : Bytes) (selfClosing : Bool) (used breaks : Bytes) : Prop where
  split : tag = 60 :: (used ++ (breaks ++ [62]))
  name : startTagName tag <+: used
  ended : Ended (TagState.name.run used) (breaks ++ [62])
  finish : gap.finish (breaks ++ [62]) = some (selfClosing, [])
  breaks : ∀ b ∈ breaks, isBreak b = true

theorem ended_name (s : Bytes) : Ended name (s.dropWhile (!isNameEnd ·)) := by
  refine .name ?_
  rcases head_dropWhile (p := (!isNameEnd ·)) s with h | ⟨b, r, h, hb⟩
  · exact Or.inl h
  · exact Or.inr ⟨b, r, h, by simpa using hb⟩

theorem step_name_of_not_isNameEnd {b : UInt8} (h : (!isNameEnd b) = true) : name.step b = name := by
  simp only [isNameEnd, Bool.not_eq_true', Bool.or_eq_false_iff] at h
  simp only [step, h]
  rfl

theorem IsStartTag.exists_attributesCut {p : Nat} {tag : Bytes} {selfClosing : Bool}
    (h : IsStartTag tag selfClosing) (inner : Source) (close : Option Bytes) :
    ∃ used breaks, AttributesCut tag selfClosing used breaks ∧
      (Source.node p tag selfClosing inner close).attributePos = p + 1 + used.length := by
  obtain ⟨d, t, htag, -, hfinish⟩ := h.eq_cons
  have hdrop : tag.drop 1 = d :: t := by rw [htag]; rfl
  have hskip := Cursor.moved_skip (!isNameEnd ·) ⟨p + 1, tag.drop 1⟩
  have hclosed : gap.finish ((tag.drop 1).dropWhile (!isNameEnd ·)) = some (selfClosing, []) := by
    rw [← name_finish_eq, hdrop]
    exact hfinish
  have hname : name.run (startTagName tag) = name :=
    run_takeWhile (fun b hb => step_name_of_not_isNameEnd hb) _
  obtain ⟨next, used, hmoved, hended, hpos, hrest⟩ := Attribute.scanAll_ended
    (c := Cursor.skip (!isNameEnd ·) ⟨p + 1, tag.drop 1⟩) (ended_name (tag.drop 1)) (by
      change gap.finish ((tag.drop 1).dropWhile (!isNameEnd ·)) ≠ none
      rw [hclosed]
      simp)
  have hfull : gap.finish next.rest = some (selfClosing, []) := by
    have hsplit : (tag.drop 1).dropWhile (!isNameEnd ·) = used ++ next.rest := hmoved.1
    rw [← (ended_name (tag.drop 1)).finish, hsplit, finish_run hended.ne_closed, hended.finish] at hclosed
    exact hclosed
  -- Behind the last attribute only breaks are left.
  have hlast : next.rest = next.rest.takeWhile isBreak ++ [62] := by
    cases hd : next.rest.dropWhile isBreak with
    | nil => simp [hd] at hrest
    | cons b y =>
      obtain rfl : b = 62 := by simpa [hd] using hrest
      have hsplit : next.rest = next.rest.takeWhile isBreak ++ 62 :: y := by
        rw [← hd]
        exact List.takeWhile_append_dropWhile.symm
      have hrun : gap.run (next.rest.takeWhile isBreak) = gap ∨ gap.run (next.rest.takeWhile isBreak) = slash :=
        run_breaks (Or.inl rfl) fun b hb => List.mem_takeWhile_imp hb
      have hopen : ∀ x, gap.run (next.rest.takeWhile isBreak) ≠ closed x := by
        rcases hrun with h | h <;> simp [h]
      rw [hsplit, finish_run hopen] at hfull
      have hy : y = [] := by
        rcases hrun with h | h
        · rw [h] at hfull
          exact (Prod.mk.inj (Option.some.inj hfull)).2
        · rw [h] at hfull
          exact (Prod.mk.inj (Option.some.inj hfull)).2
      rw [hy] at hsplit
      exact hsplit
  have hall := hskip.trans hmoved
  refine ⟨startTagName tag ++ used, next.rest.takeWhile isBreak, ⟨?_, List.prefix_append .., ?_, ?_, ?_⟩, ?_⟩
  · rw [← hlast]
    have h1 : tag = 60 :: tag.drop 1 := by rw [htag]; rfl
    rw [h1]
    exact congrArg (60 :: ·) hall.1
  · rw [run_append, hname, ← hlast]
    exact hended
  · rw [← hlast]
    exact hfull
  · exact fun b hb => List.mem_takeWhile_imp hb
  · have hnext : next.pos = p + 1 + (startTagName tag ++ used).length := hall.2
    rw [← hnext, ← hpos]
    have hattrs : (Source.node p tag selfClosing inner close).attrs =
        Attribute.scanAll (Cursor.skip (!isNameEnd ·) ⟨p + 1, tag.drop 1⟩) := rfl
    rw [Element.attributePos, hattrs]
    cases (Attribute.scanAll (Cursor.skip (!isNameEnd ·) ⟨p + 1, tag.drop 1⟩)).getLast? with
    | none =>
      simp only [Source.node, Element.tag, Element.startTag, Element.name, StartTag.scan_span, StartTag.scan_name]
      rfl
    | some a => rfl

theorem takeWhile_append_of_head {p : UInt8 → Bool} (a : Bytes) {b : UInt8} (hb : p b = false) (y : Bytes) :
    (a ++ b :: y).takeWhile p = a.takeWhile p := by
  rw [List.takeWhile_append]
  split
  · next h =>
    rw [List.takeWhile_cons_of_neg (by simp [hb]), List.append_nil]
    exact ((List.takeWhile_prefix p).eq_of_length h).symm
  · rfl

theorem apart_of_isLetter {b : UInt8} (h : Bytes.isLetter b = true) :
    isSpace b = false ∧ b ≠ 47 ∧ b ≠ 62 ∧ b ≠ 61 ∧ b ≠ 34 ∧ b ≠ 39 := by
  refine ⟨?_, ?_, ?_, ?_, ?_, ?_⟩
  · rw [Bool.eq_false_iff]
    intro hs
    rcases isSpace_cases hs with rfl | rfl | rfl | rfl | rfl <;> exact absurd h (by decide)
  all_goals
    rintro rfl
    exact absurd h (by decide)

/-- A tag with other bytes behind its last attribute. -/
theorem AttributesCut.isStartTag_of_finish {tag used breaks : Bytes} {selfClosing other : Bool}
    (h : AttributesCut tag selfClosing used breaks) (htag : IsStartTag tag selfClosing) {b : UInt8} {y : Bytes}
    (hb : isNameEnd b = true) (hfinish : TagState.name.finish (used ++ b :: y) = some (other, [])) :
    IsStartTag (60 :: (used ++ b :: y)) other ∧ startTagName (60 :: (used ++ b :: y)) = startTagName tag := by
  have hname : startTagName (60 :: (used ++ b :: y)) = used.takeWhile (!isNameEnd ·) :=
    takeWhile_append_of_head (p := (!isNameEnd ·)) used (by simp [hb]) y
  have hname' : startTagName tag = used.takeWhile (!isNameEnd ·) := by
    rw [h.split]
    cases hbreaks : breaks with
    | nil => exact takeWhile_append_of_head (p := (!isNameEnd ·)) used rfl _
    | cons c r =>
      have hend : (!isNameEnd c) = false := by
        rcases isBreak_eq (h.breaks c (by simp [hbreaks])) with hs | rfl
        · simp [isNameEnd, hs]
        · rfl
      exact takeWhile_append_of_head (p := (!isNameEnd ·)) used hend _
  have hused : used.head?.any Bytes.isLetter = true := by
    have hletter := htag.tagName.letter
    rw [hname'] at hletter
    cases used with
    | nil => simp at hletter
    | cons c r =>
      by_cases hc : isNameEnd c = true
      · simp [hc] at hletter
      · simpa [hc] using hletter
  refine ⟨⟨rfl, ?_, hfinish⟩, by rw [hname, hname']⟩
  cases used with
  | nil => simp at hused
  | cons c r => simpa using hused

/-- A self-closing tag without its slash is a start tag, unless another slash stands in front of
the slash. -/
theorem AttributesCut.isStartTag_opened {tag used breaks : Bytes} (htag : IsStartTag tag true)
    (h : AttributesCut tag true used breaks) : ∃ breaks', breaks = breaks' ++ [47] ∧
      (breaks'.getLast? ≠ some 47 → IsStartTag (60 :: (used ++ (breaks' ++ [62]))) false ∧
        startTagName (60 :: (used ++ (breaks' ++ [62]))) = startTagName tag) := by
  have hlast : breaks.getLast? = some 47 := by
    by_contra hne
    have hfinish := h.finish
    have hgap := run_breaks_eq_gap h.breaks hne
    rw [finish_run (by simp [hgap]), hgap] at hfinish
    cases hfinish
  obtain ⟨breaks', rfl⟩ : ∃ breaks', breaks = breaks' ++ [47] := List.getLast?_eq_some_iff.mp hlast
  refine ⟨breaks', rfl, fun hne => ?_⟩
  have hbreaks : ∀ b ∈ breaks', isBreak b = true := fun b hb => h.breaks b (by simp [hb])
  have hended : Ended (TagState.name.run used) (breaks' ++ [62]) := by
    have hcut := h.ended
    rw [List.append_assoc] at hcut
    exact ended_of_breaks hcut hbreaks
  have hfinish : TagState.name.finish (used ++ (breaks' ++ [62])) = some (false, []) := by
    have hgap := run_breaks_eq_gap hbreaks hne
    rw [finish_run hended.ne_closed, hended.finish, finish_run (by simp [hgap]), hgap]
    rfl
  cases breaks' with
  | nil => exact h.isStartTag_of_finish htag rfl hfinish
  | cons b r =>
    have hb : isNameEnd b = true := by
      rcases isBreak_eq (hbreaks b (List.mem_cons_self ..)) with hs | rfl
      · simp [isNameEnd, hs]
      · rfl
    exact h.isStartTag_of_finish htag hb hfinish

/-- An attribute as it is added to a tag. -/
def addedAttribute (key value : Bytes) : Bytes := .concat [" ", key, "=\"", value, "\""]

theorem addedAttribute_eq (key value : Bytes) :
    addedAttribute key value = 32 :: (key ++ 61 :: 34 :: (value ++ [34])) := by
  simp [addedAttribute, Bytes.concat, bytes]
  rfl

section AddedAttribute

variable {key value : Bytes} (hkey : ∀ b ∈ key, Bytes.isLetter b = true) (hne : key ≠ [])
  (hvalue : ∀ b ∈ value, Bytes.isLetter b = true)

include hkey hne hvalue

/-- Where an attribute may follow, an added one leaves the reader where the next may follow. An
equals sign in front of it takes it for a value. -/
theorem ended_addedAttribute {st : TagState} {s : Bytes} (h : Ended st s) :
    Ended (st.run (addedAttribute key value)) s := by
  obtain ⟨b, r, rfl⟩ := List.exists_cons_of_ne_nil hne
  have hb := apart_of_isLetter (hkey b (List.mem_cons_self ..))
  have hletter : ∀ c ∈ r, Bytes.isLetter c = true := fun c hc => hkey c (List.mem_cons_of_mem b hc)
  have hword : TagState.key.run r = .key := by
    refine run_of_all (p := Bytes.isLetter) (fun c hc => ?_) hletter
    have := apart_of_isLetter hc
    simp [step, this, toUInt8_equals]
  have hquoted : (quoted 34).run value = quoted 34 := by
    refine run_of_all (p := Bytes.isLetter) (fun c hc => ?_) hvalue
    have := apart_of_isLetter hc
    simp [step, this]
  have hadded : ∀ t : TagState, t = gap ∨ t = afterKey →
      t.run ((b :: r) ++ 61 :: 34 :: (value ++ [34])) = gap := by
    intro t ht
    have hstep : t.step b = .key := by
      rcases ht with rfl | rfl
      · simp [step, hb]
      · simp [step, hb, toUInt8_equals]
    rw [List.cons_append, run_cons, hstep, run_append, hword]
    change (quoted 34).run (value ++ [34]) = gap
    rw [run_append, hquoted]
    rfl
  rw [addedAttribute_eq]
  cases h with
  | gap => rw [run_cons, show gap.step 32 = gap from rfl, hadded _ (Or.inl rfl)]; exact .gap _
  | name h => rw [run_cons, show name.step 32 = gap from rfl, hadded _ (Or.inl rfl)]; exact .gap _
  | key h1 h2 => rw [run_cons, show TagState.key.step 32 = afterKey from rfl, hadded _ (Or.inr rfl)]; exact .gap _
  | unquoted h => rw [run_cons, show unquoted.step 32 = gap from rfl, hadded _ (Or.inl rfl)]; exact .gap _
  | beforeValue h =>
    have hquote : isQuote b = false := by
      simp only [isQuote, Bool.or_eq_false_iff, beq_eq_false_iff_ne]
      exact hb.2.2.2.2
    have hstep : beforeValue.step b = unquoted := by simp [step, hb, hquote]
    have hplain : ∀ c, Bytes.isLetter c = true → (!isValueEnd c) = true := by
      intro c hc
      have := apart_of_isLetter hc
      simp [isValueEnd, this]
    have hrest : unquoted.run (r ++ 61 :: 34 :: (value ++ [34])) = unquoted := by
      refine run_of_all (p := (!isValueEnd ·)) (fun c hc => step_unquoted_of_not_isValueEnd hc) fun c hc => ?_
      simp only [List.mem_append, List.mem_cons, List.not_mem_nil, or_false] at hc
      rcases hc with hc | rfl | rfl | hc | rfl
      · exact hplain c (hletter c hc)
      · rfl
      · rfl
      · exact hplain c (hvalue c hc)
      · rfl
    rw [run_cons, show beforeValue.step 32 = beforeValue from rfl, List.cons_append, run_cons, hstep, hrest]
    refine .unquoted ?_
    rcases h with h | h
    · exact Or.inl h
    · cases s with
      | nil => exact Or.inl rfl
      | cons c s =>
        obtain rfl : c = 62 := by simpa using h
        exact Or.inr ⟨62, s, rfl, rfl⟩

/-- Adding an attribute behind the others leaves one start tag of the same name. -/
theorem AttributesCut.isStartTag_added {tag used breaks : Bytes} {selfClosing : Bool}
    (htag : IsStartTag tag selfClosing) (h : AttributesCut tag selfClosing used breaks) :
    IsStartTag (60 :: (used ++ (addedAttribute key value ++ (breaks ++ [62])))) selfClosing ∧
      startTagName (60 :: (used ++ (addedAttribute key value ++ (breaks ++ [62])))) = startTagName tag := by
  have hended := ended_addedAttribute hkey hne hvalue h.ended
  have hfinish : TagState.name.finish (used ++ (addedAttribute key value ++ (breaks ++ [62]))) =
      some (selfClosing, []) := by
    rw [finish_run h.ended.ne_closed, finish_run hended.ne_closed, hended.finish]
    exact h.finish
  rw [addedAttribute_eq] at hfinish ⊢
  exact h.isStartTag_of_finish htag rfl hfinish

end AddedAttribute

end Codemod.Markup
