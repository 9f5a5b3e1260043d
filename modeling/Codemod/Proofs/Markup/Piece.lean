import Codemod.Proofs.Markup.Unparsed

namespace Codemod.Markup

open TagState

/-- A part of a template between two places where it can be cut. -/
inductive Piece where
  | text (s : Bytes)
  /-- Comments and what else has no effect. -/
  | inert (s : Bytes)
  | start (tag : Bytes) (selfClosing : Bool)
  | stop (tag : Bytes)
  deriving DecidableEq, Repr

def Piece.raw : Piece → Bytes
  | text s | inert s | start s _ | stop s => s

/-- The content that pieces make up. -/
def render (ps : List Piece) : Bytes := ps.flatMap Piece.raw

@[simp] theorem render_nil : render [] = [] := rfl

@[simp] theorem render_cons (x : Piece) (ps : List Piece) : render (x :: ps) = x.raw ++ render ps := rfl

@[simp] theorem render_append (ps qs : List Piece) : render (ps ++ qs) = render ps ++ render qs := by
  simp [render]

/-- The marks of pieces that begin at an offset. -/
def marksOf : Nat → List Piece → List Mark
  | _, [] => []
  | p, .text s :: ps => marksOf (p + s.length) ps
  | p, .inert s :: ps => marksOf (p + s.length) ps
  | p, .start s selfClosing :: ps => ⟨.start selfClosing, p, s⟩ :: marksOf (p + s.length) ps
  | p, .stop s :: ps => ⟨.stop, p, s⟩ :: marksOf (p + s.length) ps

theorem marksOf_append (p : Nat) (ps qs : List Piece) :
    marksOf p (ps ++ qs) = marksOf p ps ++ marksOf (p + (render ps).length) qs := by
  induction ps generalizing p with
  | nil => rfl
  | cons x ps ih => cases x <;> simp [marksOf, ih, Piece.raw, Nat.add_assoc]

/-- Pieces that are read back one by one, where `within` names the element whose raw content
comes first. What follows a text has to start a piece; raw text stands in front of its end tag. -/
inductive Reads : Option Bytes → List Piece → Prop
  | nil (within) : Reads within []
  | tail {within s} : (∀ p, marks within ⟨p, s⟩ = []) → Reads within [.text s]
  | text {s ps} : calm s = true → Leads (render ps) → Reads none ps → Reads none (.text s :: ps)
  | inert {s ps} : Inert s → Reads none ps → Reads none (.inert s :: ps)
  | start {tag selfClosing ps} : IsStartTag tag selfClosing → Reads (rawName? tag) ps →
      Reads none (.start tag selfClosing :: ps)
  | stop {tag ps} : IsEndTag tag → isVoid (endTagName tag) = false → Reads none ps →
      Reads none (.stop tag :: ps)
  | raw {name s tag ps} : (endTagName tag).map Bytes.lowerLetter = name → name ∈ rawTextNames →
      (∀ y, rawContentLength name (s ++ tag ++ y) = s.length) → IsEndTag tag →
      isVoid (endTagName tag) = false → Reads none ps → Reads (some name) (.text s :: .stop tag :: ps)

theorem tokensFrom_raw_zero {name s : Bytes} (h : rawContentLength name s = 0) (p : Nat) :
    tokensFrom (some name) ⟨p, s⟩ = tokensFrom none ⟨p, s⟩ := by
  cases s with
  | nil => simp [tokensFrom]
  | cons c s =>
    rw [tokensFrom, tokensFrom]
    simp only [Option.elim_some, Option.elim_none, h]

theorem marks_raw (name : Bytes) {s y : Bytes} (h : rawContentLength name (s ++ y) = s.length) (p : Nat) :
    marks (some name) ⟨p, s ++ y⟩ = marks none ⟨p + s.length, y⟩ := by
  cases s with
  | nil =>
    rw [List.nil_append] at h ⊢
    rw [marks, tokensFrom_raw_zero h]
    rfl
  | cons c s =>
    have hcut := tokensFrom_append (some name) (p := p) (s := c :: s) (y := y) (k := .text)
      (by simp) (by simp only [Option.elim_some, h]; rfl)
    rw [marks, hcut]
    rfl

/-- A tag piece is a tag. -/
def Piece.Valid : Piece → Prop
  | text _ | inert _ => True
  | start tag selfClosing => IsStartTag tag selfClosing
  | stop tag => IsEndTag tag ∧ isVoid (endTagName tag) = false

theorem Reads.valid {within : Option Bytes} {ps : List Piece} (h : Reads within ps) : ∀ x ∈ ps, x.Valid := by
  induction h with
  | nil => simp
  | tail _ => simp [Piece.Valid]
  | text _ _ _ ih => simpa [Piece.Valid] using ih
  | inert _ _ ih => simpa [Piece.Valid] using ih
  | start ht _ ih => simpa [Piece.Valid, ht] using ih
  | stop ht hv _ ih => simpa [Piece.Valid, ht, hv] using ih
  | raw _ _ _ ht hv _ ih => simpa [Piece.Valid, ht, hv] using ih

/-- The marks of pieces that can be read back. -/
theorem Reads.marks_render {within : Option Bytes} {ps : List Piece} (h : Reads within ps) (p : Nat) :
    marks within ⟨p, render ps⟩ = marksOf p ps := by
  induction h generalizing p with
  | nil => simp [marksOf]
  | tail h => simpa [marksOf, Piece.raw] using h p
  | text hs hl _ ih => rw [render_cons, Piece.raw, marks_calm hs hl, ih]; rfl
  | inert hs _ ih => rw [render_cons, Piece.raw, hs, ih]; rfl
  | start ht _ ih => rw [render_cons, Piece.raw, marks_start ht, ih]; rfl
  | stop ht hv _ ih => rw [render_cons, Piece.raw, marks_stop ht, hv, ih]; rfl
  | @raw name s tag ps _ _ hs ht hv _ ih =>
    rw [render_cons, Piece.raw, render_cons, Piece.raw, marks_raw _ (by rw [← List.append_assoc]; exact hs _),
      marks_stop ht, hv, ih]
    rfl

theorem textLength_lt {s : Bytes} (h : textLength s < s.length) :
    (s.drop (textLength s)).head? = some 60 := by
  induction s with
  | nil => simp at h
  | cons c s ih =>
    rw [textLength] at h ⊢
    split at h
    · next hc =>
      rw [if_pos hc]
      simp only [Bool.and_eq_true] at hc
      rw [List.drop_zero, List.head?_cons, beq_iff_eq.mp hc.1]
      rfl
    · next hc =>
      rw [if_neg hc, Nat.add_comm, List.drop_succ_cons]
      exact ih (by rw [List.length_cons] at h; omega)

/-- The pieces of a rest of the content that is shorter than a bound. -/
def Cuts (n : Nat) : Prop :=
  ∀ (within : Option Bytes) (p : Nat) (s : Bytes), s.length < n → (∀ name ∈ within, name ∈ rawTextNames) →
    (∀ m ∈ marks within ⟨p, s⟩, m.kind ≠ .unfinished) → ∃ ps, render ps = s ∧ Reads within ps

theorem cut_text {p : Nat} {c : UInt8} {s : Bytes} (hc : (c == ('<' : Char).toUInt8 && opensMarkup s) = false)
    (ih : Cuts (c :: s).length) (h : ∀ m ∈ marks none ⟨p, c :: s⟩, m.kind ≠ .unfinished) :
    ∃ ps, render ps = c :: s ∧ Reads none ps := by
  have hlen := textLength_le (c :: s)
  by_cases hall : textLength (c :: s) = (c :: s).length
  · refine ⟨[.text (c :: s)], by simp [Piece.raw], .tail fun p => ?_⟩
    rw [marks_drop_textLength hc, hall, List.drop_length, marks_nil]
  · have hhead := textLength_lt (by omega : textLength (c :: s) < (c :: s).length)
    have hpos : 0 < textLength (c :: s) := by rw [textLength_of_not_opens hc]; omega
    rw [marks_drop_textLength hc] at h
    obtain ⟨ps, hps, hread⟩ := ih none _ _ (by rw [List.length_drop]; simp only [List.length_cons] at *; omega)
      (by simp) h
    have hu : ((c :: s).take (textLength (c :: s))).length = textLength (c :: s) := by
      rw [List.length_take]
      exact Nat.min_eq_left hlen
    refine ⟨.text ((c :: s).take (textLength (c :: s))) :: ps, ?_, .text ?_ ?_ hread⟩
    · rw [render_cons, Piece.raw, hps, List.take_append_drop]
    · refine calm_of_textLength hhead ?_
      rw [List.take_append_drop, hu]
    · rw [hps]
      exact Or.inl hhead

/-- A comment is cut off; one that is not closed runs to the end. -/
theorem cut_comment {p n : Nat} {s : Bytes} (hpos : 0 < n) (hle : n ≤ s.length)
    (hscan : ∀ p, scanToken ⟨p, s⟩ = (.comment, n)) (hinert : n < s.length → Inert (s.take n))
    (ih : Cuts s.length) (h : ∀ m ∈ marks none ⟨p, s⟩, m.kind ≠ .unfinished) :
    ∃ ps, render ps = s ∧ Reads none ps := by
  by_cases hall : n = s.length
  · refine ⟨[.text s], by simp [Piece.raw], .tail fun p => ?_⟩
    have hne : s ≠ [] := by rintro rfl; simp at hall; omega
    have hcut := tokensFrom_append none (p := p) (y := []) (k := .comment) hne
      (by simpa [hall] using hscan p)
    rw [List.append_nil] at hcut
    rw [marks, hcut]
    exact marks_nil none _
  · have hin := hinert (by omega)
    have hsplit : s.take n ++ s.drop n = s := List.take_append_drop n s
    rw [← hsplit, hin] at h
    obtain ⟨ps, hps, hread⟩ := ih none _ _ (by rw [List.length_drop]; omega) (by simp) h
    exact ⟨.inert (s.take n) :: ps, by rw [render_cons, Piece.raw, hps, hsplit], .inert hin hread⟩

theorem rawName?_mem {tag : Bytes} : ∀ name ∈ rawName? tag, name ∈ rawTextNames := by
  intro name hname
  simp only [rawName?] at hname
  split at hname
  · next h =>
    cases hname
    simpa using h
  · cases hname

/-- The text ends inside a tag. -/
theorem unfinished_mem_marks {p : Nat} (head : Bytes) {s : Bytes} {kind : TagReading → Bytes → TokenKind}
    (hne : head ≠ []) (hscan : scanToken ⟨p, head ++ s⟩ = scanTag ⟨p, head ++ s⟩ head.length kind)
    (hfin : name.finish s = none) : ⟨.unfinished, p, head ++ s⟩ ∈ marks none ⟨p, head ++ s⟩ := by
  have hread := readTag_finish ⟨p + head.length, s⟩
  cases ht : readTag ⟨p + head.length, s⟩ with
  | some tag =>
    rw [ht] at hread
    obtain ⟨used, selfClosing, hr⟩ := hread
    rw [hr.finish] at hfin
    cases hfin
  | none =>
    have hkind : scanToken ⟨p, head ++ s⟩ = (.unfinished, (head ++ s).length) := by
      rw [hscan]
      simp only [scanTag, List.drop_left, ht]
    have hcut := tokensFrom_append none (p := p) (s := head ++ s) (y := []) (k := .unfinished)
      (by simp [hne]) (by simpa using hkind)
    rw [List.append_nil] at hcut
    rw [marks, hcut]
    simp [Token.mark?]

theorem scanToken_letter {p : Nat} {d : UInt8} {s : Bytes} (hd : Bytes.isLetter d = true) :
    scanToken ⟨p, 60 :: d :: s⟩ = scanTag ⟨p, 60 :: d :: s⟩ 1 startTagKind := by
  simp [scanToken, opensMarkup, scanMarkup, hd]

theorem scanToken_slash_letter {p : Nat} {d : UInt8} {s : Bytes} (hd : Bytes.isLetter d = true) :
    scanToken ⟨p, 60 :: 47 :: d :: s⟩ = scanTag ⟨p, 60 :: 47 :: d :: s⟩ 2 fun _ _ => .endTag := by
  have h47 : Bytes.isLetter 47 = false := by decide
  simp [scanToken, opensMarkup, scanMarkup, hd, h47]

theorem cut_start {p : Nat} {d : UInt8} {s : Bytes} (hd : Bytes.isLetter d = true)
    (ih : Cuts (60 :: d :: s).length) (h : ∀ m ∈ marks none ⟨p, 60 :: d :: s⟩, m.kind ≠ .unfinished) :
    ∃ ps, render ps = 60 :: d :: s ∧ Reads none ps := by
  cases hfin : name.finish (d :: s) with
  | none =>
    have := unfinished_mem_marks [60] (by simp) (scanToken_letter (p := p) hd) hfin
    exact absurd rfl (h _ this)
  | some result =>
    obtain ⟨selfClosing, r⟩ := result
    obtain ⟨used, hsplit, hused⟩ := finish_split hfin
    have htag : IsStartTag (60 :: used) selfClosing := by
      refine ⟨rfl, ?_, hused⟩
      cases used with
      | nil => simp at hused
      | cons b used =>
        rw [List.cons_append, List.cons.injEq] at hsplit
        simpa [← hsplit.1] using hd
    have hs : 60 :: d :: s = 60 :: used ++ r := by rw [hsplit]; rfl
    rw [hs] at ih h ⊢
    rw [marks_start htag] at h
    obtain ⟨ps, hps, hread⟩ := ih _ _ r (by simp only [List.length_append, List.length_cons]; omega)
      rawName?_mem fun m hm => h m (List.mem_cons_of_mem _ hm)
    exact ⟨.start (60 :: used) selfClosing :: ps, by rw [render_cons, hps]; rfl, .start htag hread⟩

theorem isEndTag_of_finish {d : UInt8} {s used r : Bytes} {selfClosing : Bool} (hd : Bytes.isLetter d = true)
    (hsplit : d :: s = used ++ r) (hused : name.finish used = some (selfClosing, [])) :
    IsEndTag (60 :: 47 :: used) := by
  refine ⟨rfl, ?_, selfClosing, hused⟩
  cases used with
  | nil => simp at hused
  | cons b used =>
    rw [List.cons_append, List.cons.injEq] at hsplit
    simpa [← hsplit.1] using hd

theorem cut_stop {p : Nat} {d : UInt8} {s : Bytes} (hd : Bytes.isLetter d = true)
    (ih : Cuts (60 :: 47 :: d :: s).length)
    (h : ∀ m ∈ marks none ⟨p, 60 :: 47 :: d :: s⟩, m.kind ≠ .unfinished) :
    ∃ ps, render ps = 60 :: 47 :: d :: s ∧ Reads none ps := by
  cases hfin : name.finish (d :: s) with
  | none =>
    have := unfinished_mem_marks [60, 47] (by simp) (scanToken_slash_letter (p := p) hd) hfin
    exact absurd rfl (h _ this)
  | some result =>
    obtain ⟨selfClosing, r⟩ := result
    obtain ⟨used, hsplit, hused⟩ := finish_split hfin
    have htag := isEndTag_of_finish hd hsplit hused
    have hs : 60 :: 47 :: d :: s = 60 :: 47 :: used ++ r := by rw [hsplit]; rfl
    rw [hs] at ih h ⊢
    rw [marks_stop htag] at h
    obtain ⟨ps, hps, hread⟩ := ih none _ r (by simp only [List.length_append, List.length_cons]; omega)
      (by simp) fun m hm => h m (List.mem_append_right _ hm)
    by_cases hvoid : isVoid (endTagName (60 :: 47 :: used)) = true
    · exact ⟨.inert (60 :: 47 :: used) :: ps, by rw [render_cons, hps]; rfl,
        .inert (inert_of_isVoid htag hvoid) hread⟩
    · exact ⟨.stop (60 :: 47 :: used) :: ps, by rw [render_cons, hps]; rfl,
        .stop htag (by simpa using hvoid) hread⟩

theorem lowerLetter_of_isNameEnd {b : UInt8} (h : isNameEnd b = true) : Bytes.lowerLetter b = b := by
  simp only [isNameEnd, Bool.or_eq_true, isSpace_iff, beq_iff_eq, toUInt8_slash, toUInt8_greater] at h
  rcases h with ((rfl | rfl | rfl | rfl | rfl) | rfl) | rfl <;> decide

/-- The elements with raw text have names that begin with a letter, are read as names to their ends, and are not
those of void elements. -/
theorem spelling_of_rawText {name : Bytes} (hname : name ∈ rawTextNames) :
    name.head?.any Bytes.isLetter = true ∧ name.any isNameEnd = false ∧
    ∀ v ∈ voidNames, v.map Bytes.lowerLetter ≠ name := by
  have hall : ∀ name ∈ rawTextNames, name.head?.any Bytes.isLetter = true ∧ name.any isNameEnd = false ∧
      ∀ v ∈ voidNames, v.map Bytes.lowerLetter ≠ name := by decide +kernel
  exact hall name hname

theorem not_isNameEnd_of_mem {name : Bytes} (hname : name ∈ rawTextNames) {b : UInt8} (hb : b ∈ name) :
    isNameEnd b = false := by
  simpa using List.any_eq_false.mp (spelling_of_rawText hname).2.1 b hb

/-- An end tag that ends raw text: how its name is spelled, and that it is no void one. -/
theorem takeWhile_of_startsName {name s : Bytes} (hname : name ∈ rawTextNames) (h : startsName name s = true) :
    (s.takeWhile (!isNameEnd ·)).map Bytes.lowerLetter = name := by
  simp only [startsName, Bool.and_eq_true, beq_iff_eq] at h
  obtain ⟨hlower, hend⟩ := h
  have hin : ∀ b ∈ s.take name.length, (!isNameEnd b) = true := by
    intro b hb
    by_contra hnot
    have hb' : isNameEnd b = true := by simpa using hnot
    have hmem : b ∈ name := by
      rw [← hlower, ← lowerLetter_of_isNameEnd hb']
      exact List.mem_map_of_mem hb
    rw [not_isNameEnd_of_mem hname hmem] at hb'
    cases hb'
  have htake : s.takeWhile (!isNameEnd ·) = s.take name.length := by
    conv_lhs => rw [← List.take_append_drop name.length s]
    rw [List.takeWhile_append_of_pos hin]
    cases hd : s.drop name.length with
    | nil => rw [hd] at hend; cases hend
    | cons c r =>
      rw [hd] at hend
      rw [List.takeWhile_cons_of_neg (by simpa using hend), List.append_nil]
  rw [htake, hlower]

theorem not_isVoid_of_lower {name tag : Bytes} (hname : name ∈ rawTextNames)
    (h : tag.map Bytes.lowerLetter = name) : isVoid tag = false := by
  rw [Bool.eq_false_iff]
  intro hvoid
  exact (spelling_of_rawText hname).2.2 tag (by simpa [isVoid] using hvoid) h

/-- The length of raw text does not depend on what follows its end tag. -/
theorem rawContentLength_append {name s tag v : Bytes}
    (h : rawContentLength name (s ++ tag ++ v) = s.length) (htag : name.length + 2 < tag.length) (y : Bytes) :
    rawContentLength name (s ++ tag ++ y) = s.length := by
  unfold rawContentLength at h ⊢
  split
  · next hp =>
    rw [if_pos hp] at h
    simp only [List.length_append] at h
    omega
  · next hp =>
    rw [if_neg hp] at h
    split
    · next hs =>
      rw [if_pos hs] at h
      refine scriptLength_append h ?_ y
      have : (bytes "script").length = 6 := by decide
      rw [hs, this] at htag
      rw [List.length_append]
      omega
    · next hs =>
      rw [if_neg hs] at h
      refine rawTextLength_append h ?_ y
      rw [List.length_append]
      omega

theorem rawContentLength_lt {name s : Bytes} (h : rawContentLength name s < s.length) :
    ∃ t, s.drop (rawContentLength name s) = 60 :: t ∧ startsEndTag name t = true := by
  unfold rawContentLength at h ⊢
  split
  · next hp => rw [if_pos hp] at h; omega
  · next hp =>
    rw [if_neg hp] at h
    split
    · next hs =>
      rw [if_pos hs] at h
      rw [hs]
      exact scriptLength_lt h
    · next hs =>
      rw [if_neg hs] at h
      exact rawTextLength_lt h

theorem rawContentLength_le (name s : Bytes) : rawContentLength name s ≤ s.length := by
  unfold rawContentLength
  split
  · exact Nat.le_refl _
  · split
    · exact scriptLength_le 0 .plain s
    · exact rawTextLength_le name s

theorem isLetter_of_lowerLetter {b : UInt8} (h : Bytes.isLetter (Bytes.lowerLetter b) = true) :
    Bytes.isLetter b = true := by
  unfold Bytes.lowerLetter at h
  split at h
  · next hb => simp [Bytes.isLetter, hb]
  · exact h

theorem isLetter_of_startsName {name s : Bytes} (hname : name ∈ rawTextNames)
    (h : (s.takeWhile (!isNameEnd ·)).map Bytes.lowerLetter = name) :
    ∃ d r, s = d :: r ∧ Bytes.isLetter d = true := by
  have hhead := (spelling_of_rawText hname).1
  cases s with
  | nil => simp [← h] at hhead
  | cons d r =>
    refine ⟨d, r, rfl, isLetter_of_lowerLetter ?_⟩
    rw [← h, List.takeWhile_cons] at hhead
    split at hhead
    · simpa using hhead
    · simp at hhead

theorem takeWhile_length_lt {p : UInt8 → Bool} {s : Bytes} {b : UInt8} (hb : b ∈ s) (hp : p b = false) :
    (s.takeWhile p).length < s.length := by
  refine Nat.lt_of_le_of_ne (List.takeWhile_prefix p).length_le fun hlen => ?_
  have hall : s.takeWhile p = s := (List.takeWhile_prefix p).eq_of_length hlen
  rw [← hall] at hb
  simp [List.mem_takeWhile_imp hb] at hp

/-- Raw text is cut off with its end tag, or runs to the end. -/
theorem cut_raw {p : Nat} {raw s : Bytes} (hraw : raw ∈ rawTextNames) (ih : Cuts s.length)
    (h : ∀ m ∈ marks (some raw) ⟨p, s⟩, m.kind ≠ .unfinished) :
    ∃ ps, render ps = s ∧ Reads (some raw) ps := by
  have hle := rawContentLength_le raw s
  by_cases hall : rawContentLength raw s = s.length
  · refine ⟨[.text s], by simp [Piece.raw], .tail fun p => ?_⟩
    have := marks_raw raw (s := s) (y := []) (by rw [List.append_nil]; exact hall) p
    rw [List.append_nil] at this
    rw [this, marks_nil]
  · obtain ⟨t, ht, hend⟩ := rawContentLength_lt (by omega : rawContentLength raw s < s.length)
    generalize hn : rawContentLength raw s = n at *
    have hlen : (s.take n).length = n := by rw [List.length_take]; omega
    have hsplit : s = s.take n ++ 60 :: t := by rw [← ht, List.take_append_drop]
    cases t with
    | nil => simp [startsEndTag] at hend
    | cons b t =>
      simp only [startsEndTag, Bool.and_eq_true] at hend
      obtain ⟨hb, hname⟩ := hend
      obtain rfl : b = 47 := beq_iff_eq.mp hb
      have hspell := takeWhile_of_startsName hraw hname
      generalize s.take n = u at hlen hsplit
      subst hsplit
      obtain ⟨d, r, rfl, hd⟩ := isLetter_of_startsName hraw hspell
      rw [marks_raw _ (hn.trans hlen.symm)] at h
      cases hfin : name.finish (d :: r) with
      | none =>
        have := unfinished_mem_marks [60, 47] (by simp)
          (scanToken_slash_letter (p := p + u.length) hd) hfin
        exact absurd rfl (h _ this)
      | some result =>
        obtain ⟨selfClosing, v⟩ := result
        obtain ⟨used, hsplit, hused⟩ := finish_split hfin
        have htag := isEndTag_of_finish hd hsplit hused
        have h62 : 62 ∈ used := mem_of_finish hused (by simp)
        rw [hsplit, takeWhile_append_of_mem h62 (by decide)] at hspell
        have hlong : raw.length + 2 < (60 :: 47 :: used).length := by
          have := takeWhile_length_lt (p := (!isNameEnd ·)) h62 (by decide)
          rw [← hspell, List.length_map, List.length_cons, List.length_cons]
          omega
        have hvoid : isVoid (endTagName (60 :: 47 :: used)) = false := not_isVoid_of_lower hraw hspell
        have hrest : 60 :: 47 :: d :: r = 60 :: 47 :: used ++ v := by rw [hsplit]; rfl
        rw [hrest] at ih h hn ⊢
        rw [marks_stop htag] at h
        obtain ⟨ps, hps, hread⟩ := ih none _ v
          (by simp only [List.length_append, List.length_cons]; omega) (by simp)
          fun m hm => h m (List.mem_append_right _ hm)
        refine ⟨.text u :: .stop (60 :: 47 :: used) :: ps, by rw [render_cons, render_cons, hps]; rfl,
          .raw hspell hraw (rawContentLength_append (v := v) ?_ hlong) htag hvoid hread⟩
        rw [List.append_assoc, hn, hlen]

theorem take_eq_append {s u : Bytes} {n k : Nat} (hu : u.length = k) (s' : Bytes) (hs : s = u ++ s') :
    s.take (k + n) = u ++ s'.take n := by
  subst hs hu
  rw [List.take_append, List.take_of_length_le (by omega), Nat.add_sub_cancel_left]

theorem cut_slash {p : Nat} {b : UInt8} {s : Bytes} (hb : Bytes.isLetter b = false)
    (ih : Cuts (60 :: 47 :: b :: s).length)
    (h : ∀ m ∈ marks none ⟨p, 60 :: 47 :: b :: s⟩, m.kind ≠ .unfinished) :
    ∃ ps, render ps = 60 :: 47 :: b :: s ∧ Reads none ps := by
  have hle := throughAngle_le (b :: s)
  have hpos := throughAngle_pos b s
  refine cut_comment (by omega) (by simp only [List.length_cons] at *; omega)
    (fun p => scanToken_slash hb) (fun hlt => ?_) ih h
  obtain ⟨n, hn⟩ : ∃ n, throughAngle (b :: s) = n + 1 := ⟨throughAngle (b :: s) - 1, by omega⟩
  rw [hn, show 2 + (n + 1) = n + 1 + 1 + 1 from by omega]
  rw [hn] at hlt hle
  simp only [List.take_succ_cons, List.length_cons] at *
  refine inert_slash (v := s.drop n) hb ?_ ?_
  · simp only [ne_eq, List.drop_eq_nil_iff]
    omega
  · rw [List.cons_append, List.take_append_drop, hn, List.length_cons, List.length_take]
    omega

theorem cut_bang {p : Nat} {d : UInt8} {s : Bytes} (hd : d = 33 ∨ d = 63)
    (hs : Bytes.startsWith (d :: s) "!--" = false) (ih : Cuts (60 :: d :: s).length)
    (h : ∀ m ∈ marks none ⟨p, 60 :: d :: s⟩, m.kind ≠ .unfinished) :
    ∃ ps, render ps = 60 :: d :: s ∧ Reads none ps := by
  have hle := throughAngle_le (d :: s)
  have hpos := throughAngle_pos d s
  refine cut_comment (by omega) (by simp only [List.length_cons] at *; omega)
    (fun p => scanToken_bang hd hs) (fun hlt => ?_) ih h
  obtain ⟨n, hn⟩ : ∃ n, throughAngle (d :: s) = n + 1 := ⟨throughAngle (d :: s) - 1, by omega⟩
  rw [hn, show 1 + (n + 1) = n + 1 + 1 from by omega]
  rw [hn] at hlt hle
  simp only [List.take_succ_cons, List.length_cons] at *
  refine inert_bang (v := s.drop n) hd ?_ ?_ ?_
  · simp only [ne_eq, List.drop_eq_nil_iff]
    omega
  · rw [List.cons_append, List.take_append_drop]
    exact hs
  · rw [List.cons_append, List.take_append_drop, hn, List.length_cons, List.length_take]
    omega

theorem cut_dashes {p : Nat} {s : Bytes} (ih : Cuts (bytes "<!--" ++ s).length)
    (h : ∀ m ∈ marks none ⟨p, bytes "<!--" ++ s⟩, m.kind ≠ .unfinished) :
    ∃ ps, render ps = bytes "<!--" ++ s ∧ Reads none ps := by
  have hle := commentLength_le 0 true s
  have h4 : (bytes "<!--").length = 4 := by decide
  refine cut_comment (by omega) (by rw [List.length_append]; omega) (fun p => scanToken_dashes p s)
    (fun hlt => ?_) ih h
  rw [List.length_append] at hlt
  rw [take_eq_append h4 s rfl]
  refine inert_comment (v := s.drop (commentLength 0 true s)) ?_ ?_
  · simp only [ne_eq, List.drop_eq_nil_iff]
    omega
  · rw [List.take_append_drop, List.length_take]
    omega

theorem cut_markup {p : Nat} {s : Bytes} (hs : opensMarkup s = true) (ih : Cuts (60 :: s).length)
    (h : ∀ m ∈ marks none ⟨p, 60 :: s⟩, m.kind ≠ .unfinished) :
    ∃ ps, render ps = 60 :: s ∧ Reads none ps := by
  cases s with
  | nil => simp [opensMarkup] at hs
  | cons d s =>
  by_cases hd : Bytes.isLetter d = true
  · exact cut_start hd ih h
  simp only [opensMarkup, hd, Bool.false_or, Bool.or_eq_true, beq_iff_eq, toUInt8_bang, toUInt8_question,
    toUInt8_slash, Bool.and_eq_true, Bool.not_eq_true', List.isEmpty_eq_false_iff] at hs
  rcases hs with hs | ⟨rfl, hs⟩
  · by_cases hdash : Bytes.startsWith (d :: s) "!--" = true
    · rw [Bytes.startsWith, List.isPrefixOf_iff_prefix] at hdash
      obtain ⟨r, hr⟩ := hdash
      rw [← hr] at ih h ⊢
      exact cut_dashes ih h
    · exact cut_bang hs (by simpa using hdash) ih h
  · obtain ⟨b, s, rfl⟩ := List.exists_cons_of_ne_nil hs
    by_cases hb : Bytes.isLetter b = true
    · exact cut_stop hb ih h
    · exact cut_slash (by simpa using hb) ih h

/-- Any content without an unfinished tag falls into pieces. -/
theorem cuts (n : Nat) : Cuts n := by
  induction n with
  | zero => intro within p s hs; omega
  | succ n ih =>
  intro within p s hs hwithin h
  have ih' : Cuts s.length := fun w p t ht => ih w p t (by omega)
  cases within with
  | some raw => exact cut_raw (hwithin raw rfl) ih' h
  | none =>
  cases s with
  | nil => exact ⟨[], rfl, .nil none⟩
  | cons c s =>
  by_cases hc : (c == ('<' : Char).toUInt8 && opensMarkup s) = true
  · simp only [Bool.and_eq_true] at hc
    obtain rfl : c = 60 := beq_iff_eq.mp hc.1
    exact cut_markup hc.2 ih' h
  · exact cut_text (by simpa using hc) ih' h

theorem exists_reads {content : Bytes} (h : ∀ m ∈ marks none ⟨0, content⟩, m.kind ≠ .unfinished) :
    ∃ ps, render ps = content ∧ Reads none ps :=
  cuts (content.length + 1) none 0 content (by omega) (by simp) h

end Codemod.Markup
