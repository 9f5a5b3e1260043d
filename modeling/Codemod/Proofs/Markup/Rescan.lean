import Codemod.Proofs.Markup.AttributePosition

namespace Codemod.Markup

/-- What follows an attribute name at `p`, with the range of its value: nothing, or a sign and a value in
matching quotes, or a sign and a value without quotes. The tag goes on with `rest`. -/
inductive Assigned (p : Nat) (rest : Bytes) : Bytes → Span → Prop
  | absent : rest.head?.any isNameEnd = true → (rest.dropWhile isSpace).head? ≠ some 61 → Assigned p rest [] ⟨p, p⟩
  | quoted {sign text : Bytes} {q : UInt8} : IsSign sign → isQuote q = true → q ∉ text →
      Assigned p rest (sign ++ q :: (text ++ [q]))
        ⟨p + sign.length + 1, p + sign.length + 1 + text.length⟩
  | unquoted {sign text : Bytes} : IsSign sign → (∀ b ∈ (text ++ rest).head?, isSpace b = false ∧ isQuote b = false) →
      (∀ b ∈ text, isValueEnd b = false) → rest.head?.any isValueEnd = true →
      Assigned p rest (sign ++ text) ⟨p + sign.length, p + sign.length + text.length⟩

/-- The rest of a tag at `p`, behind its name or behind an attribute, with the ranges of the attributes in it. A
name goes up to white space, a slash, the bracket or an equals sign that is not its first byte. -/
inductive TagRest : Nat → Bytes → List Extent → Prop
  | close {p : Nat} {breaks : Bytes} : (∀ b ∈ breaks, isBreak b = true) → TagRest p (breaks ++ [62]) []
  | attr {p : Nat} {breaks word used rest : Bytes} {x : UInt8} {value : Span} {extents : List Extent} :
      (∀ b ∈ breaks, isBreak b = true) → isBreak x = false → x ≠ 62 → (∀ b ∈ word, isKeyEnd b = false) →
      Assigned (p + breaks.length + 1 + word.length) rest used value →
      TagRest (p + breaks.length + 1 + word.length + used.length) rest extents →
      TagRest p (breaks ++ x :: (word ++ (used ++ rest)))
        (⟨⟨p + breaks.length, p + breaks.length + 1 + word.length⟩, value⟩ :: extents)

namespace Attribute

def extent (a : Attribute) : Extent := ⟨a.nameSpan, a.valueSpan⟩

/-- A name and what follows it make an attribute. -/
theorem exists_written_of_assigned {p : Nat} (x : UInt8) {word used rest : Bytes} {value : Span}
    (hword : ∀ b ∈ word, isKeyEnd b = false) (h : Assigned (p + 1 + word.length) rest used value) :
    ∃ a, Written p (x :: (word ++ used)) rest a ∧ a.extent = ⟨⟨p, p + 1 + word.length⟩, value⟩ := by
  cases h with
  | absent hend hsign =>
    have hapart : TagState.key.apart rest = true := Bool.and_eq_true_iff.mpr ⟨hend, bne_iff_ne.mpr hsign⟩
    rw [List.append_nil]
    exact ⟨_, .bare hword hapart, rfl⟩
  | quoted hsign hquote htext => exact ⟨_, .quoted hword hsign hquote htext, rfl⟩
  | unquoted hsign hfirst htext hend => exact ⟨_, .unquoted hword hsign hfirst htext hend, rfl⟩

/-- An attribute is read as the tag has it. -/
theorem scan_assigned {p : Nat} {x : UInt8} {word used rest : Bytes} {value : Span}
    (hword : ∀ b ∈ word, isKeyEnd b = false) (h : Assigned (p + 1 + word.length) rest used value) :
    (scan ⟨p, x :: (word ++ (used ++ rest))⟩).1.extent = ⟨⟨p, p + 1 + word.length⟩, value⟩ ∧
      (scan ⟨p, x :: (word ++ (used ++ rest))⟩).2 = ⟨p + 1 + word.length + used.length, rest⟩ := by
  obtain ⟨a, hwritten, hextent⟩ := exists_written_of_assigned x hword h
  rw [← List.append_assoc, hwritten.scan, List.length_append, ← Nat.add_assoc]
  exact ⟨hextent, rfl⟩

/-- All attributes behind a cursor, with the cursor where no more follow. -/
def scanThrough (c : Cursor) : List Attribute × Cursor :=
  let first := c.skip isBreak
  match _h : first.rest with
  | [] => ([], first)
  | x :: _ =>
    if x = 62 then ([], first)
    else
      let read := scan first
      let others := scanThrough read.2
      (read.1 :: others.1, others.2)
termination_by c.rest.length
decreasing_by
  have hlt := scan_length_lt (c.skip isBreak) (by rw [_h]; simp)
  exact Nat.lt_of_lt_of_le hlt (Cursor.skip_length_le _ c)

theorem scanThrough_stop {c : Cursor} (h : ∀ x ∈ (c.skip isBreak).rest.head?, x = 62) :
    scanThrough c = ([], c.skip isBreak) := by
  rw [scanThrough]
  split
  · rfl
  · next x r hx =>
    rw [hx] at h
    rw [if_pos (h x rfl)]

theorem scanThrough_step {c : Cursor} {x : UInt8} {r : Bytes} (hx : (c.skip isBreak).rest = x :: r) (hgt : x ≠ 62) :
    scanThrough c = ((scan (c.skip isBreak)).1 :: (scanThrough (scan (c.skip isBreak)).2).1,
      (scanThrough (scan (c.skip isBreak)).2).2) := by
  rw [scanThrough]
  split
  · next h =>
    rw [h] at hx
    cases hx
  · next y s h =>
    obtain ⟨rfl, -⟩ := List.cons.inj (h.symm.trans hx)
    rw [if_neg hgt]

theorem scanThrough_attrs (c : Cursor) : (scanThrough c).1 = scanAll c := by
  induction hn : c.rest.length using Nat.strong_induction_on generalizing c with
  | _ n ih =>
  subst hn
  rcases scanAll_cases c with ⟨hall, hstop⟩ | ⟨x, r, hx, hgt, hall⟩
  · rw [hall, scanThrough_stop hstop]
  · have hlt := Nat.lt_of_lt_of_le (scan_length_lt (c.skip isBreak) (by rw [hx]; simp)) (Cursor.skip_length_le _ c)
    rw [hall, scanThrough_step hx hgt, ih _ hlt _ rfl]

end Attribute

/-- The rest of a tag is read as it is written, up to the bracket that ends it. -/
theorem TagRest.scan {p : Nat} {s : Bytes} {extents : List Extent} (h : TagRest p s extents) :
    (Attribute.scanThrough ⟨p, s⟩).1.map Attribute.extent = extents ∧
      (Attribute.scanThrough ⟨p, s⟩).2 = ⟨p + s.length - 1, [62]⟩ := by
  induction h with
  | @close p breaks hbreaks =>
    have hskip : Cursor.skip isBreak ⟨p, breaks ++ [62]⟩ = ⟨p + breaks.length, [62]⟩ :=
      Cursor.skip_append hbreaks (by rintro b ⟨⟩; decide)
    rw [Attribute.scanThrough_stop (by rw [hskip]; rintro x ⟨⟩; rfl), hskip, List.length_append]
    exact ⟨rfl, rfl⟩
  | @attr p breaks word used rest x value extents hbreaks hx hgt hword hassigned hrest ih =>
    have hskip : Cursor.skip isBreak ⟨p, breaks ++ x :: (word ++ (used ++ rest))⟩ =
        ⟨p + breaks.length, x :: (word ++ (used ++ rest))⟩ :=
      Cursor.skip_append hbreaks (by rintro b ⟨⟩; exact hx)
    obtain ⟨hextent, hnext⟩ := Attribute.scan_assigned hword hassigned
    have hlen : p + (breaks ++ x :: (word ++ (used ++ rest))).length =
        p + breaks.length + 1 + word.length + used.length + rest.length := by
      simp only [List.length_append, List.length_cons]
      omega
    rw [Attribute.scanThrough_step (congrArg Cursor.rest hskip) hgt, hskip, hnext, List.map_cons, hextent, ih.1, ih.2, hlen]
    exact ⟨rfl, rfl⟩

/-- The bracket that ends a tag. -/
theorem TagRest.bracket {p : Nat} {s : Bytes} {extents : List Extent} (h : TagRest p s extents) : 62 ∈ s := by
  induction h with
  | close _ => simp
  | attr _ _ _ _ _ _ ih => simp [ih]

/-- White space and slashes in front belong to the gap before the first attribute. -/
theorem TagRest.breaks {p : Nat} {breaks s : Bytes} {extents : List Extent} (hbreaks : ∀ b ∈ breaks, isBreak b = true)
    (h : TagRest (p + breaks.length) s extents) : TagRest p (breaks ++ s) extents := by
  have hall {gap : Bytes} (hgap : ∀ b ∈ gap, isBreak b = true) : ∀ b ∈ breaks ++ gap, isBreak b = true :=
    fun b hb => (List.mem_append.mp hb).elim (hbreaks b) (hgap b)
  cases h with
  | close hgap =>
    rw [← List.append_assoc]
    exact .close (hall hgap)
  | attr hgap hx hgt hword hassigned hrest =>
    rw [Nat.add_assoc p, ← List.length_append] at hassigned hrest ⊢
    rw [← List.append_assoc]
    exact .attr (hall hgap) hx hgt hword hassigned hrest

/-- How a value is read depends on the tag only, not on what follows it. -/
theorem Assigned.of_append {p : Nat} {s y used : Bytes} {value : Span} (h : Assigned p (s ++ y) used value)
    (hs : s ≠ []) : Assigned p s used value := by
  obtain ⟨b, r, rfl⟩ := List.exists_cons_of_ne_nil hs
  cases h with
  | absent hend hsign =>
    refine .absent hend fun h => hsign ?_
    cases hd : (b :: r).dropWhile isSpace with
    | nil =>
      rw [hd] at h
      cases h
    | cons z t =>
      rw [hd] at h
      rw [List.dropWhile_append, hd]
      exact h
  | quoted hsign hquote htext => exact .quoted hsign hquote htext
  | @unquoted sign text hsign hfirst htext hend =>
    refine .unquoted hsign (fun d hd => hfirst d ?_) htext hend
    rw [← List.append_assoc, List.head?_append, Option.mem_def.mp hd]
    rfl

/-- A name with no sign behind it has no value. -/
theorem Assigned.of_blank {p : Nat} {blank r : Bytes} {x : UInt8} (hblank : ∀ b ∈ blank, isSpace b = true)
    (hx : isSpace x = false) (hsign : x ≠ 61) (hkey : ∀ b ∈ (blank ++ x :: r).head?, isKeyEnd b = true) :
    Assigned p (blank ++ x :: r) [] ⟨p, p⟩ := by
  refine .absent ?_ ?_
  · cases blank with
    | nil => simpa [isKeyEnd, toUInt8_equals, hsign] using hkey x rfl
    | cons b blank => simp [isNameEnd, hblank b (List.mem_cons_self ..)]
  · rw [List.dropWhile_append_of_pos hblank, List.dropWhile_cons_of_neg (by simp [hx])]
    simpa using hsign

/-- An attribute as the tokenizer notes it and as the tag has it. A value of which nothing is written, not even
quotes, is noted behind the name. -/
structure Extent.Agrees (noted read : Extent) : Prop where
  key : noted.key = read.key
  value : noted.value = read.value ∨
    noted.value = ⟨noted.key.stop, noted.key.stop⟩ ∧ read.value.start = read.value.stop

theorem isBreak_of_isSpace {blank : Bytes} (h : ∀ b ∈ blank, isSpace b = true) : ∀ b ∈ blank, isBreak b = true :=
  fun b hb => by simp [isBreak, h b hb]

theorem isBreak_slash {blank : Bytes} (h : ∀ b ∈ blank, isSpace b = true) : ∀ b ∈ blank ++ [47], isBreak b = true := by
  intro b hb
  rcases List.mem_append.mp hb with hb | hb
  · exact isBreak_of_isSpace h b hb
  · rw [List.mem_singleton.mp hb]
    decide

/-- The value that is noted is the one that the tag has: a slash or white space behind the name belongs to the gap. -/
theorem ValueText.assigned {p : Nat} {rest used : Bytes} {v : Span} (h : ValueText p rest used v)
    (hkey : ∀ b ∈ (used ++ rest).head?, isKeyEnd b = true) (hrest : rest ≠ []) :
    ∃ taken breaks value, used = taken ++ breaks ∧ (∀ b ∈ breaks, isBreak b = true) ∧
      Assigned p (breaks ++ rest) taken value ∧ (v = value ∨ v = ⟨p, p⟩ ∧ value.start = value.stop) := by
  obtain ⟨y, s, rfl⟩ := List.exists_cons_of_ne_nil hrest
  cases h with
  | @slash blank hblank =>
    rw [List.append_assoc, List.singleton_append] at hkey
    have habsent := Assigned.of_blank (p := p) hblank (by decide) (by decide) hkey
    rw [← List.singleton_append, ← List.append_assoc] at habsent
    exact ⟨[], blank ++ [47], _, rfl, isBreak_slash hblank, habsent, Or.inl rfl⟩
  | bare hblank _ hhead =>
    obtain ⟨hspace, hne⟩ := hhead y rfl
    exact ⟨[], used, _, rfl, isBreak_of_isSpace hblank, .of_blank hblank hspace hne hkey, Or.inl rfl⟩
  | missing hsign hhead =>
    obtain rfl : y = 62 := Option.some.inj hhead
    have hvalue : Assigned p (62 :: s) (used ++ []) ⟨p + used.length, p + used.length⟩ :=
      .unquoted hsign (by rintro b ⟨⟩; decide) (by simp) rfl
    exact ⟨used, [], _, (List.append_nil _).symm, by simp, by simpa using hvalue, Or.inr ⟨rfl, rfl⟩⟩
  | quoted hsign hquote hinner =>
    exact ⟨_, [], _, (List.append_nil _).symm, by simp, .quoted hsign hquote hinner, Or.inl rfl⟩
  | @unquoted sign inner x hsign hquote hinner hend =>
    have hspace : isSpace x = false := by
      have hx := hinner x (List.mem_cons_self ..)
      simp only [isValueEnd, Bool.or_eq_false_iff] at hx
      exact hx.1
    refine ⟨_, [], _, (List.append_nil _).symm, by simp, .unquoted hsign ?_ hinner (by simpa using hend), Or.inl rfl⟩
    rintro b ⟨⟩
    exact ⟨hspace, hquote⟩

/-- What the tokenizer notes of a tag's attributes is what the tag has. -/
theorem readAttrs_tagRest {c next : Cursor} {attrs : List Extent} (h : readAttrs c = some (attrs, next)) :
    ∃ used extents, c.rest = used ++ next.rest ∧ next.pos = c.pos + used.length ∧ TagRest c.pos used extents ∧
      List.Forall₂ Extent.Agrees attrs extents := by
  induction hn : c.rest.length using Nat.strong_induction_on generalizing c attrs with
  | _ n ih =>
  subst hn
  obtain ⟨blank, hblank, hbpos, hbsp, -⟩ := c.skip_split isSpace
  have hbreaks := isBreak_of_isSpace hbsp
  rcases readAttrs_cases c with ⟨-, hc⟩ | ⟨r, hk, hc⟩ | ⟨x, r, -, -, -, -, hc⟩ | ⟨x, r, v, after, hk, hxs, hgt, hv, hc⟩
  · cases hc.symm.trans h
  · cases hc.symm.trans h
    rw [hk] at hblank
    exact ⟨blank ++ [62], [], by simp [hblank], by simp [hbpos, Nat.add_assoc], .close hbreaks, .nil⟩
  · cases hc.symm.trans h
  rw [hc] at h
  obtain ⟨⟨others, last⟩, hrest, hboth⟩ := Option.map_eq_some_iff.mp h
  rw [hk] at hblank
  generalize c.skip isSpace = key at *
  obtain ⟨k, s⟩ := key
  dsimp only at hk hbpos hboth
  subst hk
  have hlen := congrArg List.length hblank
  rw [List.length_append, List.length_cons] at hlen
  by_cases hslash : x = 47
  · -- A slash is no attribute.
    subst hslash
    rw [Cursor.skipKey_slash] at hv hboth
    cases readValue_slash.symm.trans hv
    rw [if_pos rfl] at hboth
    cases hboth
    obtain ⟨used, extents, hused, hpos, htag, hagree⟩ := ih r.length (by omega) hrest rfl
    have hstart : k + 1 = c.pos + (blank ++ [47]).length := by
      rw [hbpos, List.length_append, Nat.add_assoc]
      rfl
    dsimp only at hused hpos htag
    rw [hstart] at hpos htag
    refine ⟨(blank ++ [47]) ++ used, extents, ?_, ?_, htag.breaks (isBreak_slash hbsp), hagree⟩
    · rw [hblank, hused]
      simp
    · rw [List.length_append, hpos, Nat.add_assoc]
  rw [Cursor.skipKey_of_not_slash hxs hgt hslash] at hv hboth
  obtain ⟨word, hword, hwpos, hwin, -⟩ := Cursor.skip_split (!isKeyEnd ·) ⟨k + 1, r⟩
  have hend := Cursor.skip_head (!isKeyEnd ·) ⟨k + 1, r⟩
  generalize Cursor.skip (!isKeyEnd ·) ⟨k + 1, r⟩ = stop at *
  dsimp only at hword hwpos
  have hafter := readValue_length_le hv
  have hwlen := congrArg List.length hword
  rw [List.length_append] at hwlen
  rw [if_neg (by omega)] at hboth
  cases hboth
  obtain ⟨rest, extents, hsplit, hpos, htag, hagree⟩ := ih after.rest.length (by omega) hrest rfl
  have hne : rest ≠ [] := List.ne_nil_of_mem htag.bracket
  obtain ⟨text, hused, hapos, htext⟩ := readValue_cases hv
  have hkeyEnd : ∀ b ∈ (text ++ after.rest).head?, isKeyEnd b = true := by
    rw [← hused]
    exact fun b hb => by simpa using hend b hb
  obtain ⟨used, breaks, value, rfl, hgap, hassigned, hvalue⟩ := htext.assigned hkeyEnd (by simp [hsplit, hne])
  rw [List.append_assoc] at hused
  rw [List.length_append, ← Nat.add_assoc] at hapos
  have hstop : stop.pos = c.pos + blank.length + 1 + word.length := by omega
  rw [hsplit, ← List.append_assoc, hstop] at hassigned
  rw [hapos, hstop] at htag
  have hbreak : isBreak x = false := by simp [isBreak, hxs, hslash]
  refine ⟨blank ++ x :: (word ++ (used ++ (breaks ++ rest))), _, ?_, ?_,
    .attr hbreaks hbreak hgt (fun b hb => by simpa using hwin b hb) (hassigned.of_append (by simp [hne]))
      (htag.breaks hgap), .cons ⟨?_, ?_⟩ hagree⟩
  · rw [hblank, hword, hused, hsplit]
    simp
  · simp only [List.length_append, List.length_cons]
    omega
  · rw [hbpos, hstop]
  · rw [hstop] at hvalue ⊢
    exact hvalue

/-- The text of a start tag at `p`, with its name and the ranges of its attributes. -/
inductive StartTagAt (p : Nat) : Bytes → Bytes → List Extent → Prop
  | intro {name rest : Bytes} {extents : List Extent} : (∀ b ∈ name, isNameEnd b = false) →
      rest.head?.any isNameEnd = true → TagRest (p + 1 + name.length) rest extents →
      StartTagAt p (60 :: (name ++ rest)) name extents

/-- Where the scan of a start tag stops. -/
def StartTag.scanStop (raw : Bytes) (start : Nat) : Cursor :=
  (Attribute.scanThrough (Cursor.skip (!isNameEnd ·) ⟨start + 1, raw.drop 1⟩)).2

/-- The scan of a start tag takes it as it is written. -/
theorem StartTagAt.scan {p : Nat} {raw name : Bytes} {extents : List Extent} (h : StartTagAt p raw name extents)
    (selfClosing : Bool) :
    (StartTag.scan raw p selfClosing).name = name ∧
      (StartTag.scan raw p selfClosing).attrs.map Attribute.extent = extents ∧
      StartTag.scanStop raw p = ⟨p + raw.length - 1, [62]⟩ := by
  cases h with
  | @intro _ rest _ hname hend htag =>
    have hskip : Cursor.skip (!isNameEnd ·) ⟨p + 1, name ++ rest⟩ = ⟨p + 1 + name.length, rest⟩ := by
      refine Cursor.skip_append (fun b hb => by simp [hname b hb]) fun b hb => ?_
      rw [Option.mem_def.mp hb] at hend
      simpa using hend
    obtain ⟨hattrs, hstop⟩ := htag.scan
    rw [Attribute.scanThrough_attrs] at hattrs
    simp only [StartTag.scan, StartTag.scanStop, List.drop_one, List.tail_cons, hskip, hattrs, hstop, true_and]
    constructor
    · have hlen : p + 1 + name.length - p = name.length + 1 := by omega
      rw [hlen, Bytes.slice, List.take_succ_cons, List.drop_one, List.tail_cons, List.take_left]
    · simp only [List.length_cons, List.length_append, Cursor.mk.injEq, and_true]
      omega

/-- A start tag among the tokens was read where it stands. -/
theorem scanToken_of_mem {within : Option Bytes} {c : Cursor} {t : Token} {name : Bytes} {attrs : List Extent}
    {selfClosing : Bool} (ht : t ∈ tokensFrom within c) (hkind : t.kind = .startTag name attrs selfClosing) :
    ∃ x r n, scanToken ⟨t.start, x :: r⟩ = (.startTag name attrs selfClosing, n) ∧ t.raw = x :: r.take (n - 1) := by
  fun_induction tokensFrom within c with
  | case1 => cases ht
  | case2 within c x r h rawLength scanned extra ih =>
    rcases List.mem_cons.mp ht with rfl | ht
    · have hraw : rawLength = 0 := by
        by_contra hne
        simp [scanned, hne] at hkind
      have hscanned : scanned = scanToken c := if_pos hraw
      have hc : c = ⟨c.pos, x :: r⟩ := by rw [← h]
      refine ⟨x, r, scanned.2, ?_, rfl⟩
      rw [← hc, ← hscanned]
      exact Prod.ext hkind rfl
    · exact ih ht

section Token

variable {p n : Nat} {x : UInt8} {r name : Bytes} {attrs : List Extent} {selfClosing : Bool}

/-- What is read as a start tag begins with a bracket and a letter. -/
theorem letter_of_scanToken (h : scanToken ⟨p, x :: r⟩ = (.startTag name attrs selfClosing, n)) :
    ∃ d s, x = 60 ∧ r = d :: s ∧ Bytes.isLetter d = true := by
  simp only [scanToken] at h
  split at h
  · next hopen =>
    obtain ⟨hx, -⟩ := Bool.and_eq_true_iff.mp hopen
    cases r with
    | nil => cases h
    | cons d s =>
      refine ⟨d, s, beq_iff_eq.mp hx, rfl, ?_⟩
      by_contra hd
      simp only [scanMarkup, if_neg hd] at h
      split_ifs at h
      · rw [scanTag] at h
        split at h <;> cases h
      all_goals cases h
  · cases h

theorem startTagAt_of_scanToken (h : scanToken ⟨p, x :: r⟩ = (.startTag name attrs selfClosing, n)) :
    ∃ extents, StartTagAt p (x :: r.take (n - 1)) name extents ∧ List.Forall₂ Extent.Agrees attrs extents := by
  obtain ⟨d, s, rfl, rfl, hd⟩ := letter_of_scanToken h
  rw [scanToken_letter hd, scanTag] at h
  split at h
  · cases h
  next tag hread =>
  change readTag ⟨p + 1, d :: s⟩ = some tag at hread
  obtain ⟨⟨attrs', next⟩, hattrs, rfl⟩ := Option.map_eq_some_iff.mp hread
  obtain ⟨used, extents, hused, hpos, htag, hagree⟩ := readAttrs_tagRest hattrs
  obtain ⟨word, hword, hwpos, hwin, -⟩ := Cursor.skip_split (!isNameEnd ·) ⟨p + 1, d :: s⟩
  have hend := Cursor.skip_head (!isNameEnd ·) ⟨p + 1, d :: s⟩
  simp only [startTagKind, Prod.mk.injEq, TokenKind.startTag.injEq] at h
  obtain ⟨⟨hname, rfl, -⟩, rfl⟩ := h
  generalize Cursor.skip (!isNameEnd ·) ⟨p + 1, d :: s⟩ = stop at *
  dsimp only at hword hwpos
  have hbytes : d :: s = (word ++ used) ++ next.rest := by rw [hword, hused, List.append_assoc]
  have hlen : next.pos - p = (word ++ used).length + 1 := by
    rw [List.length_append]
    omega
  have hstop : 1 + (stop.pos - (p + 1)) = word.length + 1 := by omega
  rw [hlen, hbytes, List.take_succ_cons, List.take_left, hstop, Bytes.slice, List.take_succ_cons, List.drop_one,
    List.tail_cons, List.take_left] at hname
  rw [hlen, hbytes, Nat.add_sub_cancel, List.take_left, ← hname]
  rw [hwpos] at htag
  obtain ⟨b, t, rfl⟩ := List.exists_cons_of_ne_nil (List.ne_nil_of_mem htag.bracket)
  refine ⟨extents, .intro (fun b hb => by simpa using hwin b hb) ?_ htag, hagree⟩
  simpa using hend b (by rw [hused]; rfl)

end Token

/-- A start tag can be read in one way only, and it is scanned as the tokenizer has read it: up to the bracket that
ends it, with its name and, at their places, the names and the values of its attributes. -/
theorem scan_of_startTag {content name : Bytes} {t : Token} {attrs : List Extent} {selfClosing : Bool}
    (ht : t ∈ tokens content) (hkind : t.kind = .startTag name attrs selfClosing) :
    ∃ extents, (∀ reading, StartTagAt t.start t.raw name reading ↔ reading = extents) ∧
      List.Forall₂ Extent.Agrees attrs extents ∧
      (StartTag.scan t.raw t.start selfClosing).name = name ∧
      (StartTag.scan t.raw t.start selfClosing).attrs.map Attribute.extent = extents ∧
      StartTag.scanStop t.raw t.start = ⟨t.stop - 1, [62]⟩ := by
  obtain ⟨x, r, n, hscan, hraw⟩ := scanToken_of_mem ht hkind
  obtain ⟨extents, htag, hagree⟩ := startTagAt_of_scanToken hscan
  rw [← hraw] at htag
  have hread := htag.scan selfClosing
  refine ⟨extents, fun reading => ⟨fun h => ?_, fun h => h ▸ htag⟩, hagree, hread⟩
  exact (h.scan selfClosing).2.1.symm.trans hread.2.1

/-- A slash behind the name, a bracket in quotes, a name that begins with a sign, a quote in a name, a slash in a
value and a sign without a value. -/
theorem scan_of_startTag_odd :
    ∃ t ∈ tokens "x<A/b = \"c>\" =d='e' f\"g=/h i= >", t.raw = bytes "<A/b = \"c>\" =d='e' f\"g=/h i= >" ∧
      (StartTag.scan t.raw t.start false).name = "A" ∧
      List.Forall₂ Extent.Agrees
        [⟨⟨4, 5⟩, ⟨9, 11⟩⟩, ⟨⟨13, 15⟩, ⟨17, 18⟩⟩, ⟨⟨20, 23⟩, ⟨24, 26⟩⟩, ⟨⟨27, 28⟩, ⟨28, 28⟩⟩]
        ((StartTag.scan t.raw t.start false).attrs.map Attribute.extent) := by
  have htoken : (tokens "x<A/b = \"c>\" =d='e' f\"g=/h i= >")[1]? = some
      ⟨.startTag "A" [⟨⟨4, 5⟩, ⟨9, 11⟩⟩, ⟨⟨13, 15⟩, ⟨17, 18⟩⟩, ⟨⟨20, 23⟩, ⟨24, 26⟩⟩, ⟨⟨27, 28⟩, ⟨28, 28⟩⟩] false,
        1, "<A/b = \"c>\" =d='e' f\"g=/h i= >"⟩ := by decide +kernel
  have hmem := List.mem_of_getElem? htoken
  obtain ⟨extents, -, hagree, hname, rfl, -⟩ := scan_of_startTag hmem rfl
  exact ⟨_, hmem, rfl, hname, hagree⟩

end Codemod.Markup
