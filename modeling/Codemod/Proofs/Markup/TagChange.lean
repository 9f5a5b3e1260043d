import Codemod.Proofs.Markup.Outline
import Codemod.Proofs.Markup.TagEdit
import Codemod.Proofs.Markup.Written

namespace Codemod.Markup

open TagState

namespace Attribute

variable {p : Nat} {front front' rest : Bytes} {attrs others : List Attribute}

namespace Front

theorem append (h : Front p front (front' ++ rest) attrs) (h' : Front (p + front.length) front' rest others) :
    Front p (front ++ front') rest (attrs ++ others) := by
  generalize hq : p + front.length = q at h'
  generalize hback : front' ++ rest = back at h
  induction h with
  | nil =>
    obtain rfl : q = _ := hq.symm
    exact h'
  | @cons p x breaks r front back a attrs hbreaks hx hgt hwritten _ ih =>
    subst hback
    have hlen : p + breaks.length + 1 + r.length + front.length = q := by
      simp only [List.length_append, List.length_cons] at hq
      omega
    have hsplit : breaks ++ x :: (r ++ front) ++ front' = breaks ++ x :: (r ++ (front ++ front')) := by simp
    rw [hsplit, List.cons_append]
    refine .cons hbreaks hx hgt ?_ (ih hlen rfl)
    rw [List.append_assoc]
    exact hwritten

theorem eq_nil (h : Front p [] rest attrs) : attrs = [] := by
  generalize hnil : ([] : Bytes) = front at h
  cases h with
  | nil => rfl
  | cons => simp at hnil

theorem front_eq_nil (h : Front p front rest []) : front = [] := by
  cases h
  rfl

/-- What follows the attributes is kept apart from the last one. -/
theorem apart (h : Front p front rest attrs) : (attrs.getLast?.elim gap behind).apart rest = true := by
  induction h with
  | nil => rfl
  | @cons p x breaks r front rest a attrs _ _ _ hwritten hfront ih =>
    rw [List.getLast?_cons]
    cases hlast : attrs.getLast? with
    | some last =>
      rw [hlast] at ih
      exact ih
    | none =>
      obtain rfl := List.getLast?_eq_none_iff.mp hlast
      cases hfront
      exact hwritten.apart

theorem finish (h : Front p front rest attrs) : gap.finish (front ++ rest) = gap.finish rest := by
  have hrun := h.run (.gap _)
  rw [finish_run (by rw [hrun]; exact apart_ne_closed h.apart), hrun, finish_of_apart h.apart]

end Front

/-- The last attributes stand behind the first ones. -/
theorem Front.exists_append (h : Front p front rest (attrs ++ others)) :
    ∃ f g, front = f ++ g ∧ Front p f (g ++ rest) attrs ∧ Front (p + f.length) g rest others := by
  induction attrs generalizing p front with
  | nil => exact ⟨[], front, rfl, .nil, h⟩
  | cons a attrs ih =>
    cases h with
    | @cons _ x breaks r front _ _ _ hbreaks hx hgt hwritten hfront =>
      obtain ⟨f, g, rfl, hf, hg⟩ := ih hfront
      rw [List.append_assoc] at hwritten
      refine ⟨breaks ++ x :: (r ++ f), g, by simp, .cons hbreaks hx hgt hwritten hf, ?_⟩
      have hlen : p + (breaks ++ x :: (r ++ f)).length = p + breaks.length + 1 + r.length + f.length := by
        simp only [List.length_append, List.length_cons]
        omega
      rw [hlen]
      exact hg

/-- Where the attributes end. -/
theorem Front.stop (h : Front p front rest attrs) :
    attrs.getLast?.elim p (fun a => a.span.stop) = p + front.length := by
  induction h with
  | nil => rfl
  | @cons p x breaks r front rest a attrs _ _ _ hwritten hfront ih =>
    have hspan : a.span.stop = p + breaks.length + 1 + r.length := by
      rw [hwritten.span, List.length_cons]
      dsimp only
      omega
    rw [List.getLast?_cons, Option.elim_some, List.length_append, List.length_cons, List.length_append]
    cases hlast : attrs.getLast? with
    | some last =>
      rw [hlast, Option.elim_some] at ih
      rw [Option.getD_some]
      omega
    | none =>
      rw [hlast, Option.elim_none] at ih
      rw [Option.getD_none]
      omega

theorem Front.tight (h : Front p front rest attrs) (hrest : rest.head? ≠ some 62) :
    ∀ b ∈ front.getLast?, isSpace b = false := by
  induction h with
  | nil => simp
  | @cons p x breaks r front rest a attrs _ hx hgt hwritten hfront ih =>
    intro b hb
    cases hfront with
    | nil =>
      rw [List.append_nil, List.getLast?_append_cons] at hb
      exact hwritten.tight (Bool.or_eq_false_iff.mp hx).1 hrest b hb
    | @cons _ x' breaks' r' front' _ a' attrs' _ _ _ _ _ =>
      rw [← List.cons_append, ← List.append_assoc, List.getLast?_append_of_ne_nil _ (by simp)] at hb
      exact ih hrest b hb

end Attribute

namespace IsStartTag

variable {tag : Bytes} {selfClosing : Bool}

/-- What stands behind the name of a start tag. -/
def behindName (tag : Bytes) : Bytes := (tag.drop 1).dropWhile (!isNameEnd ·)

theorem split (h : IsStartTag tag selfClosing) : tag = 60 :: (startTagName tag ++ behindName tag) := by
  obtain ⟨d, t, htag, -, -⟩ := h.eq_cons
  rw [startTagName, behindName, List.takeWhile_append_dropWhile, htag]
  rfl

theorem finish_behindName (h : IsStartTag tag selfClosing) : gap.finish (behindName tag) = some (selfClosing, []) := by
  rw [behindName, ← name_finish_eq]
  exact h.finish

theorem head_behindName (h : IsStartTag tag selfClosing) : (behindName tag).head?.any isNameEnd = true := by
  have hclosed : gap.finish (behindName tag) ≠ none := by simp [h.finish_behindName]
  obtain ⟨b, r, hb, hend⟩ := head_dropWhile_of_finish hclosed
  rw [behindName, hb]
  simpa using hend

variable {u : Bytes}

/-- What is read of a start tag with other bytes behind its name. -/
theorem read_respell (h : IsStartTag tag selfClosing) (hhead : u.head?.any isNameEnd = true) :
    startTagName (60 :: (startTagName tag ++ u)) = startTagName tag ∧
      (Element.ofTag (60 :: (startTagName tag ++ u))).attrs =
        Attribute.scanAll ⟨1 + (startTagName tag).length, u⟩ := by
  obtain ⟨b, r, rfl, hb⟩ := exists_cons_of_head?_any hhead
  have hplain : ∀ c ∈ startTagName tag, (!isNameEnd c) = true := fun c hc => by simp [h.tagName.plain c hc]
  have hskip : Cursor.skip (!isNameEnd ·) ⟨0 + 1, startTagName tag ++ b :: r⟩ =
      ⟨0 + 1 + (startTagName tag).length, b :: r⟩ :=
    Cursor.skip_append hplain (by rintro c ⟨⟩; simp [hb])
  constructor
  · have hname : (startTagName tag ++ b :: r).takeWhile (!isNameEnd ·) = startTagName tag := by
      rw [List.takeWhile_append_of_pos hplain, List.takeWhile_cons_of_neg (by simp [hb]), List.append_nil]
    exact hname
  · have hattrs : (Element.ofTag (60 :: (startTagName tag ++ b :: r))).attrs =
        Attribute.scanAll (Cursor.skip (!isNameEnd ·) ⟨0 + 1, startTagName tag ++ b :: r⟩) := rfl
    rw [hattrs, hskip, Nat.zero_add]

theorem openingOf_respell (h : IsStartTag tag selfClosing) (hhead : u.head?.any isNameEnd = true) (other : Bool) (p : Nat) :
    openingOf (60 :: (startTagName tag ++ u)) other =
      ⟨60 :: (startTagName tag ++ u), startTagName tag, (Attribute.scanAll ⟨p, u⟩).map Attribute.key, other⟩ := by
  obtain ⟨hname, hattrs⟩ := h.read_respell hhead
  rw [openingOf, hname, Element.keys, hattrs, Attribute.scanAll_key _ p]

theorem finish_respell (h : IsStartTag tag selfClosing) (hhead : u.head?.any isNameEnd = true) :
    name.finish (startTagName tag ++ u) = gap.finish u := by
  obtain ⟨b, r, rfl, hb⟩ := exists_cons_of_head?_any hhead
  have hplain : ∀ c ∈ startTagName tag, (!isNameEnd c) = true := fun c hc => by simp [h.tagName.plain c hc]
  rw [name_finish_eq, List.dropWhile_append_of_pos hplain, List.dropWhile_cons_of_neg (by simp [hb])]

theorem respell (h : IsStartTag tag selfClosing) {other : Bool} (hhead : u.head?.any isNameEnd = true)
    (hfinish : gap.finish u = some (other, [])) : IsStartTag (60 :: (startTagName tag ++ u)) other :=
  ⟨rfl, h.tagName.head_append _, (h.finish_respell hhead).trans hfinish⟩

end IsStartTag

/-- An equals sign of an attribute has no value behind it, not even quotes. -/
def Attribute.unassigned (a : Attribute) : Bool := a.hasValue && a.quote.isNone && a.value.isEmpty

theorem Attribute.behind_eq_beforeValue (a : Attribute) : a.behind = beforeValue ↔ a.unassigned = true := by
  unfold Attribute.behind Attribute.unassigned
  cases a.hasValue <;> cases a.quote <;> cases a.value <;> simp

theorem Attribute.behind_of_form {a b : Attribute} (h : a.form = b.form) : a.behind = b.behind := by
  simp only [Attribute.form, Attribute.key, Prod.mk.injEq] at h
  rw [Attribute.behind, h.2.2, h.2.1, h.1.2, ← Attribute.behind]

/-- Behind its equals sign an attribute takes what follows a blank for its value. -/
theorem Attribute.Written.swallows {p : Nat} {x b : UInt8} {r rest back : Bytes} {a : Attribute}
    (h : Attribute.Written p (x :: r) rest a) (hun : a.unassigned = true) (hb : isValueEnd b = false)
    (hquote : isQuote b = false) (hback : 62 ∈ back) :
    ∃ r' rest' a', r ++ 32 :: b :: back = r' ++ rest' ∧ Attribute.Written p (x :: r') rest' a' ∧ a'.value ≠ [] := by
  cases h with
  | bare => cases hun
  | quoted => cases hun
  | @unquoted _ word sign text _ hword hsign _ _ _ =>
    obtain rfl : text = [] := by simpa [Attribute.unassigned] using hun
    obtain ⟨before, after, rfl, hbefore, hafter⟩ := hsign
    have hsign : IsSign (before ++ 61 :: (after ++ [32])) := by
      refine ⟨before, after ++ [32], rfl, hbefore, fun c hc => ?_⟩
      rcases List.mem_append.mp hc with hc | hc
      · exact hafter c hc
      · rw [List.mem_singleton.mp hc]
        decide
    have hend : (back.dropWhile (!isValueEnd ·)).head?.any isValueEnd = true := by
      rcases head_dropWhile (p := (!isValueEnd ·)) back with hnil | ⟨c, y, hc, hend⟩
      · exact absurd (List.dropWhile_eq_nil_iff.mp hnil 62 hback) (by decide)
      · rw [hc]
        simpa using hend
    refine ⟨word ++ (before ++ 61 :: (after ++ [32]) ++ b :: back.takeWhile (!isValueEnd ·)),
      back.dropWhile (!isValueEnd ·), _, ?_, .unquoted hword hsign ?_ ?_ hend, by simp⟩
    · conv_lhs => rw [← List.takeWhile_append_dropWhile (p := (!isValueEnd ·)) (l := back)]
      simp
    · rintro c ⟨⟩
      exact ⟨(Bool.or_eq_false_iff.mp hb).1, hquote⟩
    · intro c hc
      rcases List.mem_cons.mp hc with rfl | hc
      · exact hb
      · simpa using List.mem_takeWhile_imp hc

section Added

variable {key value : Bytes} (hkey : ∀ b ∈ key, Bytes.isLetter b = true) (hne : key ≠ []) (hvalue : 34 ∉ value)

include hkey hne

/-- A blank and a letter are kept apart from an attribute that is complete. -/
theorem apart_addedAttribute {a : Attribute} (ha : a.unassigned = false) (rest : Bytes) :
    a.behind.apart (addedAttribute key value ++ rest) = true := by
  obtain ⟨b, r, rfl⟩ := List.exists_cons_of_ne_nil hne
  have hb := apart_of_isLetter (hkey b (List.mem_cons_self ..))
  have hsign : (addedAttribute (b :: r) value ++ rest).dropWhile isSpace =
      b :: (r ++ 61 :: 34 :: (value ++ 34 :: rest)) := by
    rw [addedAttribute_eq, List.cons_append, List.dropWhile_cons_of_pos (by decide), List.cons_append, List.cons_append,
      List.dropWhile_cons_of_neg (by simp [hb])]
    simp
  have hhead : (addedAttribute (b :: r) value ++ rest).head? = some 32 := by
    rw [addedAttribute_eq]
    rfl
  cases hbehind : a.behind with
  | gap => rfl
  | key =>
    simp only [apart, hhead, hsign]
    simp [hb, isNameEnd]
    decide
  | unquoted =>
    simp only [apart, hhead]
    rfl
  | beforeValue =>
    rw [a.behind_eq_beforeValue.mp hbehind] at ha
    cases ha
  | _ =>
    unfold Attribute.behind at hbehind
    split_ifs at hbehind

include hvalue

/-- An added attribute is read as it is meant. -/
theorem front_addedAttribute (p : Nat) (rest : Bytes) :
    ∃ a, Attribute.Front p (addedAttribute key value) rest [a] ∧ a.form = ((key, value), some 34, true) := by
  obtain ⟨b, r, rfl⟩ := List.exists_cons_of_ne_nil hne
  have hb := apart_of_isLetter (hkey b (List.mem_cons_self ..))
  have hword : ∀ c ∈ r, isKeyEnd c = false := by
    intro c hc
    obtain ⟨hspace, hslash, hgt, hsign, -⟩ := apart_of_isLetter (hkey c (List.mem_cons_of_mem b hc))
    simp only [isKeyEnd, isNameEnd, hspace, Bool.or_eq_false_iff, beq_eq_false_iff_ne, toUInt8_slash, toUInt8_greater,
      toUInt8_equals]
    exact ⟨⟨⟨trivial, hslash⟩, hgt⟩, hsign⟩
  have hsign : IsSign [61] := ⟨[], [], rfl, by simp, by simp⟩
  have hwritten : Attribute.Written (p + [32].length) (b :: (r ++ ([61] ++ 34 :: (value ++ [34])))) ([] ++ rest) _ :=
    .quoted hword hsign rfl hvalue
  have hbreak : isBreak b = false := Bool.or_eq_false_iff.mpr ⟨hb.1, beq_eq_false_iff_ne.mpr hb.2.1⟩
  have hspace : ∀ c ∈ ([32] : Bytes), isBreak c = true := by
    intro c hc
    rw [List.mem_singleton.mp hc]
    rfl
  have hfront := Attribute.Front.cons hspace hbreak hb.2.2.1 hwritten .nil
  rw [addedAttribute_eq]
  exact ⟨_, by simpa using hfront, rfl⟩

end Added

/-- A start tag at an offset, parted in front of one of its attributes. -/
structure Parted (p : Nat) (tag : Bytes) (selfClosing : Bool) (attrs others : List Attribute) (front rest : Bytes) :
    Prop where
  start : IsStartTag tag selfClosing
  split : IsStartTag.behindName tag = front ++ rest
  read : Attribute.Front (p + 1 + (startTagName tag).length) front rest attrs
  others : Attribute.scanAll ⟨p + 1 + (startTagName tag).length + front.length, rest⟩ = others
  finish : gap.finish rest = some (selfClosing, [])

theorem IsStartTag.exists_parted {p : Nat} {tag : Bytes} {selfClosing : Bool} (h : IsStartTag tag selfClosing)
    (inner : Source) (close : Option Bytes) {attrs others : List Attribute}
    (hattrs : (Source.node p tag selfClosing inner close).attrs = attrs ++ others) :
    ∃ front rest, Parted p tag selfClosing attrs others front rest := by
  have hscan : Attribute.scanAll ⟨p + 1 + (startTagName tag).length, behindName tag⟩ = attrs ++ others := hattrs
  have hfinish := h.finish_behindName
  obtain ⟨front, rest, hsplit, hfront, hothers, hrest⟩ := Attribute.exists_front (by simp [hfinish]) hscan
  exact ⟨front, rest, h, hsplit, hfront, hothers, hrest.trans hfinish⟩

namespace Parted

variable {p : Nat} {tag : Bytes} {selfClosing : Bool} {attrs others : List Attribute} {front rest : Bytes}

theorem tag_eq (h : Parted p tag selfClosing attrs others front rest) :
    tag = 60 :: (startTagName tag ++ front ++ rest) := by
  conv_lhs => rw [h.start.split, h.split]
  rw [List.append_assoc]

/-- The name of the tag ends as before if something is left in front of the change. -/
theorem head_behindName (h : Parted p tag selfClosing attrs others front rest) {kept : Bytes}
    (hrest : kept <+: rest) (hne : front ++ kept ≠ []) (y : Bytes) : (front ++ (kept ++ y)).head?.any isNameEnd = true := by
  obtain ⟨back, rfl⟩ := hrest
  have hname := h.start.head_behindName
  rw [h.split, ← List.append_assoc, List.head?_append_of_ne_nil _ hne] at hname
  rw [← List.append_assoc, List.head?_append_of_ne_nil _ hne]
  exact hname

section Inserted

variable {key value : Bytes} (hkey : ∀ b ∈ key, Bytes.isLetter b = true) (hne : key ≠ []) (hvalue : 34 ∉ value)
  (h : Parted p tag selfClosing attrs [] front rest)

include h

theorem attributePos (inner : Source) (close : Option Bytes)
    (hattrs : (Source.node p tag selfClosing inner close).attrs = attrs) :
    (Source.node p tag selfClosing inner close).attributePos = p + 1 + (startTagName tag ++ front).length := by
  have hstop := h.read.stop
  rw [Element.attributePos, hattrs, List.length_append, ← Nat.add_assoc, ← hstop]
  cases attrs.getLast? with
  | some a => rfl
  | none =>
    rw [Source.name_node]
    rfl

include hkey hne

include hvalue in
/-- Another attribute behind the last one, if that is complete. -/
theorem inserted (hlast : ∀ a ∈ attrs.getLast?, a.unassigned = false) :
    IsStartTag (60 :: (startTagName tag ++ front ++ (addedAttribute key value ++ rest))) selfClosing ∧
      startTagName (60 :: (startTagName tag ++ front ++ (addedAttribute key value ++ rest))) = startTagName tag ∧
      (Element.ofTag (60 :: (startTagName tag ++ front ++ (addedAttribute key value ++ rest)))).attrs.map Attribute.form =
        attrs.map Attribute.form ++ [((key, value), some 34, true)] := by
  obtain ⟨a, hadded, hform⟩ :=
    front_addedAttribute hkey hne hvalue (p + 1 + (startTagName tag).length + front.length) rest
  have hapart : (attrs.getLast?.elim gap Attribute.behind).apart (addedAttribute key value ++ rest) = true := by
    cases hl : attrs.getLast? with
    | none => rfl
    | some a => exact apart_addedAttribute hkey hne (hlast a hl) rest
  have hall := (h.read.of_apart hapart).append hadded
  have hhead : (front ++ addedAttribute key value ++ rest).head?.any isNameEnd = true := by
    cases front with
    | nil =>
      rw [addedAttribute_eq]
      rfl
    | cons b r =>
      have hname := h.start.head_behindName
      rw [h.split] at hname
      exact hname
  have hnil : (Attribute.scanAll ⟨p + 1 + (startTagName tag).length + (front ++ addedAttribute key value).length, rest⟩).map
      Attribute.form = [] := by
    rw [Attribute.scanAll_form _ (p + 1 + (startTagName tag).length + front.length), h.others]
    rfl
  obtain ⟨hname, hattrs⟩ := h.start.read_respell hhead
  have hraw : startTagName tag ++ front ++ (addedAttribute key value ++ rest) =
      startTagName tag ++ (front ++ addedAttribute key value ++ rest) := by simp
  rw [hraw]
  refine ⟨h.start.respell hhead (hall.finish.trans h.finish), hname, ?_⟩
  rw [hattrs, Attribute.scanAll_form _ (p + 1 + (startTagName tag).length), hall.scanAll, List.map_append, hnil,
    List.append_nil, List.map_append, List.map_singleton, hform]

/-- Behind an equals sign the other attribute is taken for a value. -/
theorem inserted_unassigned {last : Attribute} (hlast : attrs.getLast? = some last) (hun : last.unassigned = true) :
    (openingOf (60 :: (startTagName tag ++ front ++ (addedAttribute key value ++ rest))) selfClosing).attrs ≠
      attrs.map Attribute.key ++ [(key, value)] := by
  obtain ⟨init, rfl⟩ := List.getLast?_eq_some_iff.mp hlast
  obtain ⟨f, g, rfl, hinit, hg⟩ := h.read.exists_append
  cases hg with
  | @cons _ x breaks r _ _ _ _ hbreaks hx hgt hwritten hnil =>
    obtain rfl := hnil.front_eq_nil
    obtain ⟨b, k, rfl⟩ := List.exists_cons_of_ne_nil hne
    have hb := apart_of_isLetter (hkey b (List.mem_cons_self ..))
    have hgreater : (62 : UInt8) ∈ k ++ 61 :: 34 :: (value ++ 34 :: rest) := by
      simp [mem_of_finish h.finish (by simp)]
    have hquote : isQuote b = false := by
      simp only [isQuote, Bool.or_eq_false_iff, beq_eq_false_iff_ne]
      exact hb.2.2.2.2
    obtain ⟨r', back, a', hsplit, hwritten', hvalue'⟩ :=
      hwritten.swallows hun (by simp [isValueEnd, hb] : isValueEnd b = false) hquote hgreater
    have hfirst := Attribute.scanAll_written hbreaks hx hgt hwritten'
    have hbytes : f ++ (breaks ++ x :: (r ++ [])) ++ (addedAttribute (b :: k) value ++ rest) =
        f ++ (breaks ++ x :: (r' ++ back)) := by
      rw [← hsplit, addedAttribute_eq]
      simp
    have hinit' : Attribute.Front (p + 1 + (startTagName tag).length) f (breaks ++ x :: (r' ++ back)) init := by
      refine hinit.of_apart ?_
      have hspace : isSpace x = false := (Bool.or_eq_false_iff.mp hx).1
      have happ := hinit.apart
      rw [show breaks ++ x :: (r ++ []) ++ rest = (breaks ++ [x]) ++ (r ++ rest) by simp,
        apart_append (b := x) (by simp) hspace _ _ (r' ++ back)] at happ
      simpa using happ
    have hhead : (f ++ (breaks ++ x :: (r' ++ back))).head?.any isNameEnd = true := by
      have hname := h.start.head_behindName
      rw [h.split, show f ++ (breaks ++ x :: (r ++ [])) ++ rest = (f ++ (breaks ++ [x])) ++ (r ++ rest) by simp,
        List.head?_append_of_ne_nil _ (by simp)] at hname
      rw [show f ++ (breaks ++ x :: (r' ++ back)) = (f ++ (breaks ++ [x])) ++ (r' ++ back) by simp,
        List.head?_append_of_ne_nil _ (by simp)]
      exact hname
    rw [List.append_assoc, hbytes, h.start.openingOf_respell hhead selfClosing (p + 1 + (startTagName tag).length),
      hinit'.scanAll, hfirst]
    intro heq
    simp only [List.map_append, List.map_cons, List.append_assoc, List.append_cancel_left_eq] at heq
    have hsame : a'.key = last.key := (List.cons.inj heq).1
    simp only [Attribute.unassigned, Bool.and_eq_true, List.isEmpty_iff] at hun
    exact hvalue' ((congrArg Prod.snd hsame).trans hun.2)

end Inserted

end Parted

theorem exists_trailing_space (s : Bytes) :
    ∃ kept blank, s = kept ++ blank ∧ (∀ b ∈ blank, isSpace b = true) ∧ ∀ b ∈ kept.getLast?, isSpace b = false := by
  refine ⟨(s.reverse.dropWhile isSpace).reverse, (s.reverse.takeWhile isSpace).reverse, ?_, ?_, ?_⟩
  · rw [← List.reverse_append, List.takeWhile_append_dropWhile, List.reverse_reverse]
  · intro b hb
    exact List.mem_takeWhile_imp (List.mem_reverse.mp hb)
  · intro b hb
    rw [List.getLast?_reverse] at hb
    obtain ⟨r, hr⟩ := List.head?_eq_some_iff.mp hb
    exact isSpace_head_dropWhile hr

theorem step_break {st : TagState} {b : UInt8} (h : st.step 47 = slash) (hb : isBreak b = true) :
    (st.step b).step 47 = slash := by
  rcases isBreak_eq hb with hs | rfl
  · cases st with
    | beforeValue => exact absurd h (by decide)
    | unquoted => exact absurd h (by decide)
    | quoted q =>
      simp only [step] at h
      split_ifs at h
    | closed x => exact absurd h (by simp [step])
    | _ => simp only [step, hs, if_true]; rfl
  · rw [h]
    rfl

theorem run_breaks_slash {st : TagState} (h : st.step 47 = slash) {breaks : Bytes}
    (hbreaks : ∀ b ∈ breaks, isBreak b = true) : st.run (breaks ++ [47]) = slash := by
  induction breaks generalizing st with
  | nil => exact h
  | cons b breaks ih =>
    exact ih (step_break h (hbreaks b (List.mem_cons_self ..))) fun c hc => hbreaks c (List.mem_cons_of_mem b hc)

/-- A slash behind an attribute or behind the name stands between attributes. -/
theorem run_slash {st : TagState} {breaks s : Bytes} (h : Ended st (breaks ++ 47 :: s))
    (hbreaks : ∀ b ∈ breaks, isBreak b = true) : st.run (breaks ++ [47]) = slash := by
  cases h with
  | gap => exact run_breaks_slash rfl hbreaks
  | name => exact run_breaks_slash rfl hbreaks
  | key => exact run_breaks_slash rfl hbreaks
  | unquoted h =>
    cases breaks with
    | nil => simp [isValueEnd] at h; exact absurd h (by decide)
    | cons b breaks =>
      have hspace : isSpace b = true := by
        rcases isBreak_eq (hbreaks b (List.mem_cons_self ..)) with hs | rfl
        · exact hs
        · simp [isValueEnd] at h; exact absurd h (by decide)
      have hstep : unquoted.step b = gap := by simp [step, hspace]
      rw [List.cons_append, run_cons, hstep]
      exact run_breaks_slash rfl fun c hc => hbreaks c (List.mem_cons_of_mem b hc)
  | beforeValue h =>
    cases breaks with
    | nil => simp at h
    | cons b breaks =>
      obtain rfl : b = 62 := by simpa using h
      exact absurd (hbreaks 62 (List.mem_cons_self ..)) (by decide)

theorem IsSign.unique {s t u v : Bytes} {c d : UInt8} (hs : IsSign s) (ht : IsSign t) (hc : isSpace c = false)
    (hd : isSpace d = false) (h : s ++ c :: u = t ++ d :: v) : s = t := by
  obtain ⟨j, y, hj, hy⟩ := hs.skip (s := c :: u) (by rintro b ⟨⟩; exact hc) 0
  obtain ⟨k, z, hk, hz⟩ := ht.skip (s := d :: v) (by rintro b ⟨⟩; exact hd) 0
  rw [h, hk] at hj
  obtain ⟨rfl, hrest⟩ := Cursor.mk.inj hj
  obtain rfl := (List.cons.inj hrest).2
  rw [hz] at hy
  have hlen := congrArg Cursor.pos hy
  exact (List.append_inj h (by simpa using hlen.symm)).1

/-- How an attribute is written settles where it ends. -/
theorem Attribute.Written.eq_of_form {p q : Nat} {x : UInt8} {r r' rest rest' back : Bytes} {a a' : Attribute}
    (h : Attribute.Written p (x :: r) rest a) (h' : Attribute.Written q (x :: r') rest' a') (hun : a.unassigned = false)
    (hsplit : r ++ back = r' ++ rest') (hform : a'.form = a.form) : r = r' := by
  simp only [Attribute.form, Attribute.key, Prod.mk.injEq] at hform
  obtain ⟨⟨hname, hvalue⟩, hquote, hsome⟩ := hform
  cases h with
  | bare =>
    cases h' with
    | bare => exact (List.cons.inj hname).2.symm
    | quoted => cases hsome
    | unquoted => cases hsome
  | quoted _ hsign hq _ =>
    cases h' with
    | bare => cases hsome
    | unquoted => cases hquote
    | quoted _ hsign' _ _ =>
      obtain rfl := (List.cons.inj hname).2
      obtain rfl := Option.some.inj hquote
      obtain rfl : _ = _ := hvalue
      simp only [List.append_assoc, List.cons_append, List.append_cancel_left_eq] at hsplit
      have hspace := not_isSpace_of_isQuote hq
      rw [hsign.unique hsign' hspace hspace hsplit]
  | unquoted _ hsign hfirst _ _ =>
    cases h' with
    | bare => cases hsome
    | quoted => cases hquote
    | @unquoted _ _ _ text _ _ hsign' _ _ _ =>
      obtain rfl := (List.cons.inj hname).2
      obtain rfl : text = _ := hvalue
      cases text with
      | nil => cases hun
      | cons c text =>
        simp only [List.append_assoc, List.cons_append, List.append_cancel_left_eq] at hsplit
        have hspace := (hfirst c rfl).1
        rw [hsign.unique hsign' hspace hspace hsplit]

/-- A start tag around one of its attributes. In front of the attribute stand breaks that end in white space. -/
structure Around (p : Nat) (tag : Bytes) (selfClosing : Bool) (attrs : List Attribute) (a : Attribute)
    (others : List Attribute) (front kept blank : Bytes) (x : UInt8) (r back : Bytes) : Prop where
  parted : Parted p tag selfClosing attrs (a :: others) front (kept ++ (blank ++ x :: (r ++ back)))
  next : Attribute.Next (p + 1 + (startTagName tag).length + front.length) (kept ++ (blank ++ x :: (r ++ back))) a others
    (kept ++ blank) x r back
  blank : ∀ b ∈ blank, isSpace b = true
  kept : ∀ b ∈ kept.getLast?, isSpace b = false

theorem Parted.exists_around {p : Nat} {tag : Bytes} {selfClosing : Bool} {attrs others : List Attribute}
    {front rest : Bytes} {a : Attribute} (h : Parted p tag selfClosing attrs (a :: others) front rest) :
    ∃ kept blank x r back, Around p tag selfClosing attrs a others front kept blank x r back := by
  obtain ⟨breaks, x, r, back, hnext⟩ := Attribute.exists_next (by simp [h.finish]) h.others
  obtain ⟨kept, blank, rfl, hblank, hkept⟩ := exists_trailing_space breaks
  obtain rfl : rest = kept ++ (blank ++ x :: (r ++ back)) := by
    rw [hnext.split]
    simp
  exact ⟨kept, blank, x, r, back, h, hnext, hblank, hkept⟩

namespace Around

variable {p : Nat} {tag : Bytes} {selfClosing : Bool} {attrs others : List Attribute} {a : Attribute}
  {front kept blank r back : Bytes} {x : UInt8}

section

variable (h : Around p tag selfClosing attrs a others front kept blank x r back)

include h

/-- What stands in front of the attribute and of the white space there, behind the bracket. -/
theorem tag_eq : tag = (60 :: (startTagName tag ++ (front ++ kept))) ++ (blank ++ (x :: r ++ back)) := by
  conv_lhs => rw [h.parted.tag_eq]
  simp

theorem span : a.span.start = p + 1 + (startTagName tag ++ (front ++ kept)).length + blank.length ∧
    a.span.stop = p + 1 + (startTagName tag ++ (front ++ kept)).length + blank.length + (x :: r).length := by
  rw [h.next.written.span]
  simp only [List.length_append, List.length_cons]
  omega

theorem head_ne : (kept ++ (blank ++ x :: (r ++ back))).head? ≠ some 62 := by
  rw [h.next.split]
  cases hb : kept ++ blank with
  | nil => simpa using h.next.first.2
  | cons b bs =>
    have hbreak := h.next.skipped b (by simp [hb])
    rintro ⟨⟩
    exact absurd hbreak (by decide)

/-- The bytes in front of the hole do not end in white space. -/
theorem last : ∀ b ∈ (60 :: (startTagName tag ++ (front ++ kept))).getLast?, isSpace b = false := by
  intro b hb
  rcases List.eq_nil_or_concat kept with rfl | ⟨kept, c, rfl⟩
  · rcases List.eq_nil_or_concat front with rfl | ⟨front, c, rfl⟩
    · have hmem := List.mem_of_mem_getLast? hb
      rw [List.append_nil, List.append_nil] at hmem
      rcases List.mem_cons.mp hmem with rfl | hmem
      · decide
      · have hplain := h.parted.start.tagName.plain b hmem
        simp only [isNameEnd, Bool.or_eq_false_iff] at hplain
        exact hplain.1.1
    · refine h.parted.read.tight h.head_ne b ?_
      simpa [List.getLast?_cons, List.getLast?_append] using hb
  · refine h.kept b ?_
    simpa [List.getLast?_cons, List.getLast?_append] using hb

/-- The breaks that are kept end in a slash. -/
theorem kept_cases : kept = [] ∨ ∃ pre, kept = pre ++ [47] ∧ ∀ b ∈ pre, isBreak b = true := by
  rcases List.eq_nil_or_concat kept with rfl | ⟨pre, c, rfl⟩
  · exact Or.inl rfl
  · rw [List.concat_eq_append] at *
    have hspace := h.kept c (by simp)
    obtain rfl : c = 47 := (isBreak_eq (h.next.skipped c (by simp))).resolve_left (by simp [hspace])
    exact Or.inr ⟨pre, rfl, fun b hb => h.next.skipped b (by simp [hb])⟩

/-- The state of a reader in front of the hole: behind a slash, or behind the attribute before it, or behind the name. -/
theorem state : name.run (startTagName tag ++ (front ++ kept)) =
    if kept = [] then attrs.getLast?.elim name Attribute.behind else slash := by
  have hname : name.run (startTagName tag) = name := run_takeWhile (fun b hb => step_name_of_not_isNameEnd hb) _
  have hended : Ended name (front ++ (kept ++ (blank ++ x :: (r ++ back)))) := h.parted.split ▸ ended_name (tag.drop 1)
  rw [run_append, hname, run_append, h.parted.read.run hended]
  rcases h.kept_cases with rfl | ⟨pre, rfl, hpre⟩
  · rfl
  · rw [if_neg (by simp)]
    refine run_slash (s := blank ++ x :: (r ++ back)) ?_ hpre
    have happ := h.parted.read.apart
    cases hl : attrs.getLast? with
    | none =>
      have hempty := h.parted.read
      rw [List.getLast?_eq_none_iff.mp hl] at hempty
      rw [hempty.front_eq_nil] at hended
      simpa using hended
    | some last =>
      rw [hl] at happ
      simpa using ended_of_apart happ last.behind_ne_slash

/-- The tag without the attribute, if its two parts do not become one. -/
theorem removed (hapart : (name.run (startTagName tag ++ (front ++ kept))).apart back = true) :
    IsStartTag (60 :: (startTagName tag ++ (front ++ kept ++ back))) selfClosing ∧
      startTagName (60 :: (startTagName tag ++ (front ++ kept ++ back))) = startTagName tag ∧
      (Element.ofTag (60 :: (startTagName tag ++ (front ++ kept ++ back)))).attrs.map Attribute.form =
        (attrs ++ others).map Attribute.form := by
  have hbehind := hapart
  rw [h.state] at hbehind
  -- Nothing changes for what was read in front of the attribute, nor for what is read behind it.
  have hkeep : (attrs.getLast?.elim gap Attribute.behind).apart (kept ++ back) = true ∧
      gap.finish (kept ++ back) = gap.finish back ∧ (front ++ (kept ++ back)).head?.any isNameEnd = true := by
    have hbegins : kept <+: kept ++ (blank ++ x :: (r ++ back)) := List.prefix_append ..
    rcases h.kept_cases with rfl | ⟨pre, rfl, hpre⟩
    · rw [if_pos rfl] at hbehind
      refine ⟨?_, rfl, ?_⟩
      · cases hl : attrs.getLast? with
        | none => rfl
        | some last =>
          rw [hl] at hbehind
          exact hbehind
      · by_cases hnil : front = []
        · subst hnil
          rw [h.parted.read.eq_nil] at hbehind
          exact hbehind
        · exact h.parted.head_behindName hbegins (by simpa using hnil) back
    · rw [if_neg (by simp)] at hbehind
      refine ⟨?_, ?_, h.parted.head_behindName hbegins (by simp) back⟩
      · rw [apart_append (b := 47) (by simp) (by decide) _ back (blank ++ x :: (r ++ back))]
        exact h.parted.read.apart
      · have hgap : gap.run (pre ++ [47]) = slash := run_breaks_slash rfl hpre
        rw [finish_run (by simp [hgap]), hgap, finish_of_apart hbehind]
  have hbreaks : ∀ b ∈ kept, isBreak b = true := fun b hb => h.next.skipped b (List.mem_append_left _ hb)
  have hforms : (Attribute.scanAll ⟨p + 1 + (startTagName tag).length + front.length, kept ++ back⟩).map Attribute.form =
      others.map Attribute.form := by
    rw [Attribute.scanAll_breaks hbreaks, Attribute.scanAll_form, h.next.others]
  have hall := h.parted.read.of_apart hkeep.1
  obtain ⟨hname, hattrs⟩ := h.parted.start.read_respell hkeep.2.2
  rw [List.append_assoc]
  refine ⟨h.parted.start.respell hkeep.2.2 ?_, hname, ?_⟩
  · exact ((hall.finish.trans hkeep.2.1).trans h.next.finish).trans h.parted.finish
  · rw [hattrs, Attribute.scanAll_form _ (p + 1 + (startTagName tag).length), hall.scanAll, List.map_append, hforms,
      ← List.map_append]

theorem finish_back : gap.finish back = some (selfClosing, []) := h.next.finish.trans h.parted.finish

/-- The attribute in front of a hole is another one if what follows the hole becomes part of it. -/
theorem form_ne_of_joined {init : List Attribute} {last : Attribute} (hattrs : attrs = init ++ [last]) (hkept : kept = [])
    (hapart : last.behind.apart back = false)
    (htag : IsStartTag (60 :: (startTagName tag ++ (front ++ kept ++ back))) selfClosing) :
    (Element.ofTag (60 :: (startTagName tag ++ (front ++ kept ++ back)))).attrs.map Attribute.form ≠
      (attrs ++ others).map Attribute.form := by
  subst hattrs hkept
  obtain ⟨f, g, rfl, hinit, hg⟩ := h.parted.read.exists_append
  cases hg with
  | @cons _ y breaks w _ _ _ _ hbreaks hy hgt hwritten hnil =>
    obtain rfl := hnil.front_eq_nil
    have hspace : isSpace y = false := (Bool.or_eq_false_iff.mp hy).1
    have hun : last.unassigned = false := by
      rw [Bool.eq_false_iff]
      intro hun
      have happ := hwritten.apart
      rw [last.behind_eq_beforeValue.mpr hun] at happ
      exact h.head_ne (by simpa [apart] using happ)
    -- Up to the first byte of the attribute nothing changes.
    have hinit' : Attribute.Front (p + 1 + (startTagName tag).length) f (breaks ++ y :: (w ++ back)) init := by
      refine hinit.of_apart ?_
      have happ := hinit.apart
      rw [show ∀ z, breaks ++ y :: (w ++ []) ++ z = (breaks ++ [y]) ++ (w ++ z) by simp,
        apart_append (b := y) (by simp) hspace _ _ (w ++ back)] at happ
      simpa using happ
    have hbytes : f ++ (breaks ++ y :: (w ++ [])) ++ [] ++ back = f ++ (breaks ++ y :: (w ++ back)) := by simp
    rw [hbytes] at htag ⊢
    have hhead : (f ++ (breaks ++ y :: (w ++ back))).head?.any isNameEnd = true := by
      have hname := h.parted.head_behindName List.nil_prefix (by simp) back
      rw [← hbytes]
      simpa using hname
    have hkey : gap.run (breaks ++ [y]) = .key := run_of_ended (r := w ++ back) (.gap _) hbreaks hy hgt
    have hclosed : TagState.key.finish (w ++ back) ≠ none := by
      have hfinish := htag.finish
      rw [List.drop_one, List.tail_cons, h.parted.start.finish_respell hhead, hinit'.finish,
        show breaks ++ y :: (w ++ back) = (breaks ++ [y]) ++ (w ++ back) by simp, finish_run (by simp [hkey]), hkey] at hfinish
      simp [hfinish]
    obtain ⟨w', rest', a', hw, hwritten'⟩ :=
      Attribute.exists_written (p + 1 + (startTagName tag).length + f.length + breaks.length) y hclosed
    intro hforms
    rw [(h.parted.start.read_respell hhead).2, Attribute.scanAll_form _ (p + 1 + (startTagName tag).length),
      hinit'.scanAll, hw, Attribute.scanAll_written hbreaks hy hgt hwritten'] at hforms
    simp only [List.map_append, List.map_cons, List.append_assoc, List.append_cancel_left_eq,
      List.cons_append, List.nil_append] at hforms
    have hform : a'.form = last.form := (List.cons.inj hforms).1
    obtain rfl := hwritten.eq_of_form hwritten' hun hw hform
    obtain rfl := List.append_cancel_left hw
    have happ := hwritten'.apart
    rw [Attribute.behind_of_form hform, hapart] at happ
    cases happ

/-- The tag without the attribute is not the tag that was meant if its two parts become one. -/
theorem joined (hapart : (name.run (startTagName tag ++ (front ++ kept))).apart back = false)
    (htag : IsStartTag (60 :: (startTagName tag ++ (front ++ kept ++ back))) selfClosing)
    (hname : startTagName (60 :: (startTagName tag ++ (front ++ kept ++ back))) = startTagName tag) :
    (Element.ofTag (60 :: (startTagName tag ++ (front ++ kept ++ back)))).attrs.map Attribute.form ≠
      (attrs ++ others).map Attribute.form := by
  have hbehind := hapart
  rw [h.state] at hbehind
  obtain ⟨b, y, rfl⟩ := List.exists_cons_of_ne_nil (List.ne_nil_of_mem (mem_of_finish h.finish_back (by simp)))
  rcases h.kept_cases with hkept | ⟨pre, hkept, hpre⟩
  · rw [if_pos hkept] at hbehind
    cases hl : attrs.getLast? with
    | some last =>
      obtain ⟨init, hattrs⟩ := List.getLast?_eq_some_iff.mp hl
      rw [hl] at hbehind
      exact h.form_ne_of_joined hattrs hkept hbehind htag
    | none =>
      -- The name goes on behind the hole.
      exfalso
      have hempty := h.parted.read
      rw [List.getLast?_eq_none_iff.mp hl] at hempty
      rw [hl] at hbehind
      rw [hempty.front_eq_nil, hkept] at hname
      have hplain : ∀ c ∈ startTagName tag, (!isNameEnd c) = true := fun c hc => by
        simp [h.parted.start.tagName.plain c hc]
      have hb : (!isNameEnd b) = true := by simpa [apart] using hbehind
      have hlen := congrArg List.length hname
      have htake : startTagName (60 :: (startTagName tag ++ ([] ++ [] ++ b :: y))) =
          startTagName tag ++ (b :: y).takeWhile (!isNameEnd ·) := List.takeWhile_append_of_pos hplain
      rw [htake, List.takeWhile_cons_of_pos (p := (!isNameEnd ·)) hb, List.length_append, List.length_cons] at hlen
      omega
  · -- The slash in front of the hole closes the element.
    exfalso
    have hstate := h.state
    rw [if_neg (by simp [hkept])] at hbehind hstate
    obtain rfl : b = 62 := by simpa [apart] using hbehind
    have hopen := h.finish_back
    have hclose := htag.finish
    rw [List.drop_one, List.tail_cons, ← List.append_assoc, finish_run (by simp [hstate]), hstate] at hclose
    rw [finish_cons_closed (rfl : gap.step 62 = closed false)] at hopen
    rw [finish_cons_closed (rfl : slash.step 62 = closed true)] at hclose
    cases hopen
    cases hclose

end

end Around

end Codemod.Markup
