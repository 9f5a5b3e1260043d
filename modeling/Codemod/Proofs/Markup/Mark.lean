import Codemod.Markup.Document
import Codemod.Proofs.Markup.TagReading

namespace Codemod.Markup

open TagState

inductive MarkKind where
  | start (selfClosing : Bool)
  | stop
  | unfinished
  deriving DecidableEq, Repr

/-- A token on which the tree depends: a tag, but not the end tag of a void element. -/
structure Mark where
  kind : MarkKind
  start : Nat
  raw : Bytes
  deriving DecidableEq, Repr

@[simp] theorem toUInt8_slash : ('/' : Char).toUInt8 = 47 := rfl

@[simp] theorem toUInt8_less : ('<' : Char).toUInt8 = 60 := rfl

@[simp] theorem toUInt8_greater : ('>' : Char).toUInt8 = 62 := rfl

@[simp] theorem toUInt8_bang : ('!' : Char).toUInt8 = 33 := rfl

@[simp] theorem toUInt8_question : ('?' : Char).toUInt8 = 63 := rfl

@[simp] theorem toUInt8_dash : ('-' : Char).toUInt8 = 45 := rfl

def Token.mark? (t : Token) : Option Mark :=
  match t.kind with
  | .text | .comment => none
  | .startTag _ _ selfClosing => some ⟨.start selfClosing, t.start, t.raw⟩
  | .endTag => if isVoid (endTagName t.raw) then none else some ⟨.stop, t.start, t.raw⟩
  | .unfinished => some ⟨.unfinished, t.start, t.raw⟩

def Forest.mark (f : Forest) (m : Mark) : Except (Malformed × Nat) Forest :=
  match m.kind with
  | .start selfClosing => .ok (f.start (StartTag.scan m.raw m.start selfClosing))
  | .stop => (f.finish (endTagName m.raw) ⟨m.start, m.start + m.raw.length⟩).mapError (·, m.start)
  | .unfinished => .error (.unfinishedTag, m.start)

theorem Forest.add_eq (f : Forest) (t : Token) : f.add t = t.mark?.elim (.ok f) f.mark := by
  obtain ⟨kind, start, raw⟩ := t
  cases kind with
  | endTag =>
    by_cases hvoid : isVoid (endTagName raw) = true
    · simp [Forest.add, Token.mark?, Forest.finish, hvoid, Except.mapError]
    · simp [Forest.add, Token.mark?, Forest.mark, Token.stop, hvoid]
  | _ => rfl

/-- The tokens left out of the marks leave the tree as it is. -/
theorem foldlM_add (ts : List Token) (f : Forest) :
    ts.foldlM Forest.add f = (ts.filterMap Token.mark?).foldlM Forest.mark f := by
  induction ts generalizing f with
  | nil => rfl
  | cons t ts ih =>
    rw [List.foldlM_cons, Forest.add_eq]
    cases hm : t.mark? with
    | none =>
      rw [List.filterMap_cons_none hm]
      exact ih f
    | some m =>
      rw [List.filterMap_cons_some hm, List.foldlM_cons]
      simp only [Option.elim_some, ih]

def marks (within : Option Bytes) (c : Cursor) : List Mark := (tokensFrom within c).filterMap Token.mark?

@[simp] theorem marks_nil (within : Option Bytes) (p : Nat) : marks within ⟨p, []⟩ = [] := by
  simp [marks, tokensFrom]

/-- One token is cut off: its bytes, and the tokens behind it. -/
theorem tokensFrom_append (within : Option Bytes) {p : Nat} {s y : Bytes} {k : TokenKind} (hs : s ≠ [])
    (h : (if within.elim 0 (rawContentLength · (s ++ y)) = 0 then scanToken ⟨p, s ++ y⟩
      else (.text, within.elim 0 (rawContentLength · (s ++ y)))) = (k, s.length)) :
    tokensFrom within ⟨p, s ++ y⟩ = ⟨k, p, s⟩ :: tokensFrom k.rawText? ⟨p + s.length, y⟩ := by
  cases s with
  | nil => exact absurd rfl hs
  | cons x r =>
    rw [List.cons_append] at h ⊢
    rw [tokensFrom]
    simp only [h, List.length_cons, Nat.add_sub_cancel, List.take_left, List.drop_left]
    rw [Nat.add_right_comm, Nat.add_assoc]

/-- Bytes that are one start tag, whatever follows. -/
structure IsStartTag (tag : Bytes) (selfClosing : Bool) : Prop where
  head : tag.head? = some 60
  letter : (tag.drop 1).head?.any Bytes.isLetter = true
  finish : name.finish (tag.drop 1) = some (selfClosing, [])

/-- Bytes that are one end tag, whatever follows. -/
structure IsEndTag (tag : Bytes) : Prop where
  head : tag.take 2 = [60, 47]
  letter : (tag.drop 2).head?.any Bytes.isLetter = true
  finish : ∃ selfClosing, name.finish (tag.drop 2) = some (selfClosing, [])

/-- The name in a start tag. -/
def startTagName (tag : Bytes) : Bytes := (tag.drop 1).takeWhile (!isNameEnd ·)

/-- The element whose raw content a start tag opens. -/
def rawName? (tag : Bytes) : Option Bytes :=
  let name := (startTagName tag).map Bytes.lowerLetter
  if rawTextNames.contains name then some name else none

theorem closesItself_eq {c : Cursor} {tag : TagReading} {used : Bytes} {selfClosing : Bool}
    (h : TagRead c tag used selfClosing) : closesItself tag (60 :: used) = selfClosing := by
  have hbefore : (((60 :: used).reverse.drop 1).head? = some 47) ↔ used.dropLast.getLast? = some 47 := by
    rw [List.drop_one, List.tail_reverse, List.head?_reverse]
    cases used with
    | nil => simp
    | cons b s =>
      rw [List.dropLast_cons_cons, List.getLast?_cons]
      cases (b :: s).dropLast.getLast? <;> simp
  rw [Bool.eq_iff_iff, h.slash, closesItself, Option.any_eq_true, ← hbefore]
  cases tag.attrs.getLast? with
  | none => simp
  | some a => simp

theorem takeWhile_append_of_mem {p : UInt8 → Bool} {s y : Bytes} {b : UInt8} (hb : b ∈ s) (hp : p b = false) :
    (s ++ y).takeWhile p = s.takeWhile p := by
  rw [List.takeWhile_append, if_neg]
  intro hlen
  have hall : s.takeWhile p = s := (List.takeWhile_prefix p).eq_of_length hlen
  rw [← hall] at hb
  simp [List.mem_takeWhile_imp hb] at hp

/-- A tag is read as one token, whatever follows. -/
theorem scanTag_eq {p : Nat} (head : Bytes) {used y : Bytes} {selfClosing : Bool}
    (h : name.finish used = some (selfClosing, [])) (kind : TagReading → Bytes → TokenKind) :
    ∃ tag, TagRead ⟨p + head.length, used ++ y⟩ tag used selfClosing ∧
      scanTag ⟨p, head ++ used ++ y⟩ head.length kind = (kind tag (head ++ used), (head ++ used).length) := by
  have hfin : name.finish (used ++ y) = some (selfClosing, y) := finish_append h y
  have hread := readTag_finish ⟨p + head.length, used ++ y⟩
  have hdrop : (head ++ used ++ y).drop head.length = used ++ y := by simp
  cases ht : readTag ⟨p + head.length, used ++ y⟩ with
  | none =>
    rw [ht, hfin] at hread
    cases hread
  | some tag =>
    rw [ht] at hread
    obtain ⟨used', selfClosing', hr⟩ := hread
    have hsame := hr.finish.symm.trans hfin
    have hsplit := hr.split
    simp only [Option.some.injEq, Prod.mk.injEq] at hsame
    rw [hsame.2] at hsplit
    obtain rfl : used = used' := List.append_cancel_right hsplit
    rw [hsame.1] at hr
    have hlen : tag.next.pos - p = (head ++ used).length := by
      rw [hr.pos, List.length_append]
      dsimp only
      omega
    refine ⟨tag, hr, ?_⟩
    simp only [scanTag, hdrop, ht, hlen, List.take_left]

theorem IsStartTag.eq_cons {tag : Bytes} {selfClosing : Bool} (h : IsStartTag tag selfClosing) :
    ∃ d s, tag = 60 :: d :: s ∧ Bytes.isLetter d = true ∧ name.finish (d :: s) = some (selfClosing, []) := by
  obtain ⟨hhead, hletter, hfin⟩ := h
  rcases tag with _ | ⟨a, _ | ⟨d, s⟩⟩
  · simp at hhead
  · simp at hletter
  · refine ⟨d, s, ?_, by simpa using hletter, hfin⟩
    simpa using hhead

theorem IsEndTag.eq_cons {tag : Bytes} (h : IsEndTag tag) :
    ∃ d s selfClosing, tag = 60 :: 47 :: d :: s ∧ Bytes.isLetter d = true ∧
      name.finish (d :: s) = some (selfClosing, []) := by
  obtain ⟨hhead, hletter, selfClosing, hfin⟩ := h
  rcases tag with _ | ⟨a, _ | ⟨b, _ | ⟨d, s⟩⟩⟩
  · simp at hhead
  · simp at hhead
  · simp at hletter
  · refine ⟨d, s, selfClosing, ?_, by simpa using hletter, hfin⟩
    simpa using hhead

/-- Only a closing bracket ends a tag. -/
theorem step_ne_closed {st : TagState} {b : UInt8} (hst : ∀ x, st ≠ closed x) (hb : b ≠ 62) :
    ∀ x, st.step b ≠ closed x := by
  have hgt : (b == ('>' : Char).toUInt8) = false := beq_eq_false_iff_ne.mpr hb
  intro x
  cases st <;> simp only [step, hgt] <;> repeat' split
  all_goals simp_all

/-- A finished tag holds its closing bracket. -/
theorem mem_of_finish {st : TagState} {s r : Bytes} {selfClosing : Bool}
    (h : st.finish s = some (selfClosing, r)) (hst : ∀ x, st ≠ closed x) : 62 ∈ s := by
  induction s generalizing st with
  | nil => simp at h
  | cons b s ih =>
    by_cases hb : b = 62
    · simp [hb]
    · have hopen := step_ne_closed hst hb
      rw [finish_cons_open hopen] at h
      exact List.mem_cons_of_mem b (ih h hopen)

theorem scanToken_start {p : Nat} {tag y : Bytes} {selfClosing : Bool} (h : IsStartTag tag selfClosing) :
    ∃ attrs, scanToken ⟨p, tag ++ y⟩ = (.startTag (startTagName tag) attrs selfClosing, tag.length) := by
  obtain ⟨d, s, rfl, hd, hfin⟩ := h.eq_cons
  obtain ⟨reading, hr, hscan⟩ := scanTag_eq (p := p) (y := y) [60] hfin startTagKind
  refine ⟨reading.attrs, ?_⟩
  have hopens : opensMarkup (d :: s ++ y) = true := by simp [opensMarkup, hd]
  have hname : reading.name.stop - reading.name.start = (startTagName (60 :: d :: s)).length := by
    have h62 : 62 ∈ d :: s := mem_of_finish hfin (by simp)
    rw [hr.name]
    simp only [startTagName, List.drop_one, List.tail_cons, Nat.add_sub_cancel_left]
    rw [takeWhile_append_of_mem h62 (by decide)]
  have hkind : startTagKind reading (60 :: d :: s) =
      .startTag (startTagName (60 :: d :: s)) reading.attrs selfClosing := by
    simp only [startTagKind, hname, closesItself_eq hr, Bytes.slice]
    congr 1
    rw [Nat.add_comm, List.take_succ_cons, List.drop_one, List.tail_cons]
    exact (List.prefix_iff_eq_take.mp (List.takeWhile_prefix _)).symm
  simp only [List.cons_append, List.nil_append, List.length_cons, List.length_nil] at hscan hopens ⊢
  simp only [scanToken, scanMarkup, toUInt8_less, beq_self_eq_true, hopens, Bool.and_self, if_true, hd, hscan, hkind]

theorem scanToken_stop {p : Nat} {tag y : Bytes} (h : IsEndTag tag) :
    scanToken ⟨p, tag ++ y⟩ = (.endTag, tag.length) := by
  obtain ⟨d, s, selfClosing, rfl, hd, hfin⟩ := h.eq_cons
  obtain ⟨reading, hr, hscan⟩ := scanTag_eq (p := p) (y := y) [60, 47] hfin fun _ _ => .endTag
  have hopens : opensMarkup (47 :: d :: (s ++ y)) = true := by simp [opensMarkup]
  have h47 : Bytes.isLetter 47 = false := by decide
  have hhead : (d :: (s ++ y)).head?.any Bytes.isLetter = true := by simpa using hd
  simp only [List.cons_append, List.nil_append, List.length_cons, List.length_nil] at hscan ⊢
  simp only [scanToken, scanMarkup, toUInt8_less, beq_self_eq_true, hopens, Bool.and_self, if_true, h47,
    Bool.false_eq_true, if_false, toUInt8_slash, hhead, hscan]

theorem rawText?_startTag (tag : Bytes) (attrs : List Extent) (selfClosing : Bool) :
    (TokenKind.startTag (startTagName tag) attrs selfClosing).rawText? = rawName? tag := rfl

/-- A start tag is a mark, whatever follows. -/
theorem marks_start {p : Nat} {tag : Bytes} {selfClosing : Bool} (h : IsStartTag tag selfClosing) (y : Bytes) :
    marks none ⟨p, tag ++ y⟩ = ⟨.start selfClosing, p, tag⟩ :: marks (rawName? tag) ⟨p + tag.length, y⟩ := by
  obtain ⟨attrs, hscan⟩ := scanToken_start (p := p) (y := y) h
  have hne : tag ≠ [] := by
    rintro rfl
    simpa using h.head
  rw [marks, tokensFrom_append none hne (by simpa using hscan), rawText?_startTag]
  rfl

/-- An end tag is a mark unless it names a void element. -/
theorem marks_stop {p : Nat} {tag : Bytes} (h : IsEndTag tag) (y : Bytes) :
    marks none ⟨p, tag ++ y⟩ = (if isVoid (endTagName tag) then [] else [⟨.stop, p, tag⟩]) ++
      marks none ⟨p + tag.length, y⟩ := by
  have hscan := scanToken_stop (p := p) (y := y) h
  have hne : tag ≠ [] := by
    rintro rfl
    simpa using h.head
  rw [marks, tokensFrom_append none hne (by simpa using hscan)]
  by_cases hvoid : isVoid (endTagName tag) = true
  · rw [List.filterMap_cons_none (by simp [Token.mark?, hvoid]), if_pos hvoid]
    rfl
  · rw [List.filterMap_cons_some (by simp [Token.mark?, hvoid]; rfl), if_neg hvoid]
    rfl

/-- Text that can be followed by a tag or a line break: no bracket in it opens markup. -/
def calm : Bytes → Bool
  | [] => true
  | c :: s => !(c == '<' && opensMarkup (s ++ "<")) && calm s

/-- What may follow a text without becoming part of its last bracket. -/
def Leads (y : Bytes) : Prop := y.head? = some 60 ∨ y.head? = some 10

theorem opensMarkup_append {y : Bytes} (hy : Leads y) (s : Bytes) :
    opensMarkup (s ++ y) = opensMarkup (s ++ "<") := by
  cases y with
  | nil => simp [Leads] at hy
  | cons b y =>
    cases s with
    | nil =>
      rcases hy with hy | hy
      · cases hy; rfl
      · cases hy; rfl
    | cons c s => cases s <;> rfl

theorem textLength_le (s : Bytes) : textLength s ≤ s.length := by
  induction s with
  | nil => simp [textLength]
  | cons c s ih =>
    rw [textLength]
    split
    · simp
    · simp only [List.length_cons]; omega

theorem textLength_of_not_opens {c : UInt8} {s : Bytes} (h : (c == ('<' : Char).toUInt8 && opensMarkup s) = false) :
    textLength (c :: s) = 1 + textLength s := by
  rw [textLength, h]
  rfl

theorem scanToken_text {p : Nat} {c : UInt8} {s : Bytes}
    (h : (c == ('<' : Char).toUInt8 && opensMarkup s) = false) :
    scanToken ⟨p, c :: s⟩ = (.text, textLength (c :: s)) := by
  simp only [scanToken, h, textLength_of_not_opens h]
  rfl

/-- The tokens behind the text at the cursor. -/
theorem marks_drop_textLength {p : Nat} {c : UInt8} {s : Bytes}
    (h : (c == ('<' : Char).toUInt8 && opensMarkup s) = false) :
    marks none ⟨p, c :: s⟩ =
      marks none ⟨p + textLength (c :: s), (c :: s).drop (textLength (c :: s))⟩ := by
  have hscan := scanToken_text (p := p) h
  have hlen : ((c :: s).take (textLength (c :: s))).length = textLength (c :: s) := by
    rw [List.length_take]
    exact Nat.min_eq_left (textLength_le _)
  have hne : (c :: s).take (textLength (c :: s)) ≠ [] := by
    intro h0
    rw [h0, textLength_of_not_opens h, List.length_nil] at hlen
    omega
  have hcut := tokensFrom_append none (p := p) (y := (c :: s).drop (textLength (c :: s))) (k := .text)
    hne (by simpa only [Option.elim_none, if_true, List.take_append_drop, hlen] using hscan)
  rw [List.take_append_drop, hlen] at hcut
  rw [marks, hcut]
  rfl

/-- A byte that opens no markup is passed over. -/
theorem marks_text_cons {p : Nat} {c : UInt8} {s : Bytes}
    (h : (c == ('<' : Char).toUInt8 && opensMarkup s) = false) :
    marks none ⟨p, c :: s⟩ = marks none ⟨p + 1, s⟩ := by
  rw [marks_drop_textLength h, textLength_of_not_opens h]
  cases s with
  | nil => simp [textLength]
  | cons d s =>
    by_cases hd : (d == ('<' : Char).toUInt8 && opensMarkup s) = true
    · have h0 : textLength (d :: s) = 0 := by rw [textLength, if_pos hd]
      rw [h0]
      rfl
    · rw [marks_drop_textLength (p := p + 1) (by simpa using hd), Nat.add_comm 1, List.drop_succ_cons,
        Nat.add_assoc, Nat.add_comm 1]

theorem marks_calm {s y : Bytes} (hs : calm s = true) (hy : Leads y) (p : Nat) :
    marks none ⟨p, s ++ y⟩ = marks none ⟨p + s.length, y⟩ := by
  induction s generalizing p with
  | nil => rfl
  | cons c s ih =>
    simp only [calm, Bool.and_eq_true, Bool.not_eq_true'] at hs
    rw [List.cons_append, marks_text_cons (by rw [opensMarkup_append hy]; exact hs.1), ih hs.2,
      List.length_cons, Nat.add_assoc, Nat.add_comm 1]

/-- The text in front of markup is calm. -/
theorem calm_of_textLength {u v : Bytes} (hv : v.head? = some 60) (h : textLength (u ++ v) = u.length) :
    calm u = true := by
  induction u with
  | nil => rfl
  | cons c u ih =>
    have hopen : (c == ('<' : Char).toUInt8 && opensMarkup (u ++ v)) = false := by
      rw [List.cons_append, textLength] at h
      split at h
      · simp at h
      · next hc => simpa using hc
    rw [List.cons_append, textLength_of_not_opens hopen, List.length_cons] at h
    rw [opensMarkup_append (Or.inl hv)] at hopen
    simp only [calm, hopen, Bool.not_false, Bool.true_and]
    exact ih (by omega)

end Codemod.Markup
